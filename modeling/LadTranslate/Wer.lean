-- Word error rate (tools/score_stt.py): the table of `wer`, filled row by row,
-- and the walk back through it that counts the edits of each kind. An index
-- outside a table gives `none`, and so does one below zero.
import LadTranslate.EditScripts
import LadTranslate.Grids

open edit_scripts grids

namespace lad_translate.score_stt

/-! ## The code -/

/-- What stands in the table of the walk back: `""`, `"="`, `"s"`, `"d"` and `"i"`. -/
inductive Back
  | unset
  | same
  | substituted
  | deleted
  | inserted
deriving DecidableEq

structure Tables where
  dist : Grid Nat
  back : Grid Back

/-- `dist[i][j], back[i][j] = value, op`. -/
def Tables.write (t : Tables) (i j value : Nat) (op : Back) : Option Tables := do
  return { dist := ← t.dist.set? i j value, back := ← t.back.set? i j op }

/-- `i - 1`, above zero. -/
def pred : Nat → Option Nat
  | 0 => none
  | i + 1 => some i

section

variable (reference hypothesis : List String)

/-- One turn of the inner loop. -/
def cell (i : Nat) (t : Tables) (j : Nat) : Option Tables := do
  let above ← pred i
  let left ← pred j
  if (← reference[above]?) = (← hypothesis[left]?) then
    t.write i j (← t.dist.get? above left) .same
  else
    let sub := (← t.dist.get? above left) + 1
    let dele := (← t.dist.get? above j) + 1
    let ins := (← t.dist.get? i left) + 1
    let best := min (min sub dele) ins
    t.write i j best
      (if best = sub then .substituted else if best = dele then .deleted else .inserted)

/-- The loops over the table. -/
def fill : Option Tables := do
  let n := reference.length
  let m := hypothesis.length
  let t : Tables := ⟨.filled (n + 1) (m + 1) 0, .filled (n + 1) (m + 1) .unset⟩
  let t ← (List.range' 1 n).foldlM (fun t i => t.write i 0 i .deleted) t
  let t ← (List.range' 1 m).foldlM (fun t j => t.write 0 j j .inserted) t
  (List.range' 1 n).foldlM (fun t i => (List.range' 1 m).foldlM (cell reference hypothesis i) t) t

end

structure Counts where
  subs : Nat := 0
  dels : Nat := 0
  inss : Nat := 0
deriving DecidableEq

/-- The walk back. Its last branch takes every other mark as an insertion. -/
def backtrace (back : Grid Back) : Nat → Nat → Nat → Counts → Option Counts
  | 0, _, _, _ => none
  | fuel + 1, i, j, c =>
    if i > 0 ∨ j > 0 then do
      match ← back.get? i j with
      | .same => backtrace back fuel (← pred i) (← pred j) c
      | .substituted => backtrace back fuel (← pred i) (← pred j) { c with subs := c.subs + 1 }
      | .deleted => backtrace back fuel (← pred i) j { c with dels := c.dels + 1 }
      | .inserted | .unset => backtrace back fuel i (← pred j) { c with inss := c.inss + 1 }
    else some c

/-- Substitutions, deletions, insertions and the distance. The walk back has
`fuel` turns. -/
def wer (reference hypothesis : List String) (fuel : Nat) : Option (Nat × Nat × Nat × Nat) := do
  let t ← fill reference hypothesis
  let c ← backtrace t.back fuel reference.length hypothesis.length {}
  return (c.subs, c.dels, c.inss, ← t.dist.get? reference.length hypothesis.length)

/-! ## What the table holds -/

/-- The first words, the last one first. -/
def upTo (words : List String) (i : Nat) : List String := (words.take i).reverse

theorem upTo_succ {words : List String} {i : Nat} {word : String} (h : words[i]? = some word) :
    upTo words (i + 1) = word :: upTo words i := by
  obtain ⟨hi, rfl⟩ := List.getElem?_eq_some_iff.mp h
  rw [upTo, List.take_succ_eq_append_getElem hi, List.reverse_append]
  rfl

theorem upTo_length {words : List String} {i : Nat} (h : i ≤ words.length) :
    (upTo words i).length = i := by
  rw [upTo, List.length_reverse, List.length_take, Nat.min_eq_left h]

/-- The first operation of a best alignment, as the code chooses it. -/
def chosen : List String → List String → Back
  | [], [] => .unset
  | _ :: _, [] => .deleted
  | [], _ :: _ => .inserted
  | x :: a, y :: b =>
    if x = y then .same
    else if distance (x :: a) (y :: b) = distance a b + 1 then .substituted
    else if distance (x :: a) (y :: b) = distance a (y :: b) + 1 then .deleted
    else .inserted

section

variable {reference hypothesis : List String}

/-- The places that are done hold the distance of the words before them. Every
place can be written. -/
structure Filled (reference hypothesis : List String) (done : Nat → Nat → Prop) (t : Tables) :
    Prop where
  dist : ∀ i j, i ≤ reference.length → j ≤ hypothesis.length → done i j →
    t.dist.get? i j = some (distance (upTo reference i) (upTo hypothesis j))
  back : ∀ i j, i ≤ reference.length → j ≤ hypothesis.length → done i j →
    t.back.get? i j = some (chosen (upTo reference i) (upTo hypothesis j))
  there : ∀ i j, i ≤ reference.length → j ≤ hypothesis.length →
    (∃ v, t.dist.get? i j = some v) ∧ ∃ op, t.back.get? i j = some op

theorem Filled.mono {done done' : Nat → Nat → Prop} {t : Tables}
    (h : Filled reference hypothesis done t)
    (hdone : ∀ i j, i ≤ reference.length → j ≤ hypothesis.length → done' i j → done i j) :
    Filled reference hypothesis done' t :=
  ⟨fun i j hi hj hd => h.dist i j hi hj (hdone i j hi hj hd),
    fun i j hi hj hd => h.back i j hi hj (hdone i j hi hj hd), h.there⟩

/-- To write what belongs in a place is to have done it. -/
theorem Filled.write {done : Nat → Nat → Prop} {t : Tables} {i j value : Nat} {op : Back}
    (h : Filled reference hypothesis done t) (hi : i ≤ reference.length)
    (hj : j ≤ hypothesis.length)
    (hvalue : value = distance (upTo reference i) (upTo hypothesis j))
    (hop : op = chosen (upTo reference i) (upTo hypothesis j)) :
    ∃ t', t.write i j value op = some t' ∧
      Filled reference hypothesis (fun i' j' => done i' j' ∨ (i' = i ∧ j' = j)) t' := by
  obtain ⟨⟨v, hv⟩, op', hop'⟩ := h.there i j hi hj
  obtain ⟨dist, hdist, hself, hother⟩ := Grid.exists_set? hv value
  obtain ⟨back, hback, hselfb, hotherb⟩ := Grid.exists_set? hop' op
  refine ⟨⟨dist, back⟩, ?_, ?_⟩
  · rw [Tables.write, hdist, hback]
    rfl
  · refine ⟨?_, ?_, ?_⟩
    · intro i' j' hi' hj' hd
      by_cases hat : i' = i ∧ j' = j
      · rw [hat.1, hat.2, hself, hvalue]
      · rw [hother i' j' (not_and_or.mp hat)]
        exact h.dist i' j' hi' hj' (hd.resolve_right hat)
    · intro i' j' hi' hj' hd
      by_cases hat : i' = i ∧ j' = j
      · rw [hat.1, hat.2, hselfb, hop]
      · rw [hotherb i' j' (not_and_or.mp hat)]
        exact h.back i' j' hi' hj' (hd.resolve_right hat)
    · intro i' j' hi' hj'
      by_cases hat : i' = i ∧ j' = j
      · rw [hat.1, hat.2]
        exact ⟨⟨_, hself⟩, _, hselfb⟩
      · rw [hother i' j' (not_and_or.mp hat), hotherb i' j' (not_and_or.mp hat)]
        exact h.there i' j' hi' hj'

/-- A turn of the inner loop reads three places that are done, and does one. -/
theorem Filled.cell {done : Nat → Nat → Prop} {t : Tables} {i j : Nat}
    (h : Filled reference hypothesis done t) (hi : i < reference.length)
    (hj : j < hypothesis.length) (hdiag : done i j) (habove : done i (j + 1))
    (hleft : done (i + 1) j) :
    ∃ t', cell reference hypothesis (i + 1) t (j + 1) = some t' ∧
      Filled reference hypothesis (fun i' j' => done i' j' ∨ (i' = i + 1 ∧ j' = j + 1)) t' := by
  have hword : reference[i]? = some reference[i] := List.getElem?_eq_getElem hi
  have hheard : hypothesis[j]? = some hypothesis[j] := List.getElem?_eq_getElem hj
  have hd := h.dist i j hi.le hj.le hdiag
  have ha := h.dist i (j + 1) hi.le hj habove
  have hl := h.dist (i + 1) j hi hj.le hleft
  have hrow := upTo_succ hword
  have hcolumn := upTo_succ hheard
  unfold score_stt.cell
  simp only [pred, hword, hheard, Option.bind_eq_bind, Option.bind_some]
  by_cases hsame : reference[i] = hypothesis[j]
  · rw [if_pos hsame, hd, Option.bind_some]
    apply h.write hi hj
    · rw [hrow, hcolumn, distance, if_pos hsame]
    · rw [hrow, hcolumn, chosen, if_pos hsame]
  · rw [if_neg hsame, hd, Option.bind_some, ha, Option.bind_some, hl, Option.bind_some]
    have hbest : distance (upTo reference (i + 1)) (upTo hypothesis (j + 1)) =
        min (min (distance (upTo reference i) (upTo hypothesis j) + 1)
          (distance (upTo reference i) (upTo hypothesis (j + 1)) + 1))
          (distance (upTo reference (i + 1)) (upTo hypothesis j) + 1) := by
      rw [hrow, hcolumn, distance, if_neg hsame]
    apply h.write hi hj hbest.symm
    rw [← hbest, hrow, hcolumn, chosen, if_neg hsame]

theorem filled_start (reference hypothesis : List String) :
    Filled reference hypothesis (fun i j => j = 0 ∧ i ≤ 0)
      ⟨.filled (reference.length + 1) (hypothesis.length + 1) 0,
        .filled (reference.length + 1) (hypothesis.length + 1) .unset⟩ := by
  refine ⟨?_, ?_, ?_⟩
  · rintro i j hi hj ⟨rfl, hzero⟩
    obtain rfl := Nat.le_zero.mp hzero
    rw [Grid.get?_filled 0 (by omega) (by omega), upTo, upTo, List.take_zero, List.reverse_nil,
      List.take_zero, List.reverse_nil, distance, List.length_nil]
  · rintro i j hi hj ⟨rfl, hzero⟩
    obtain rfl := Nat.le_zero.mp hzero
    exact Grid.get?_filled Back.unset (by omega) (by omega)
  · intro i j hi hj
    exact ⟨⟨0, Grid.get?_filled 0 (by omega) (by omega)⟩, Back.unset,
      Grid.get?_filled Back.unset (by omega) (by omega)⟩

theorem distance_nil (a : List String) : distance a [] = a.length := by
  cases a <;> rw [distance]

theorem upTo_zero (words : List String) : upTo words 0 = [] := rfl

/-- The loops do every place of the table. -/
theorem fill_filled (reference hypothesis : List String) :
    ∃ t, fill reference hypothesis = some t ∧
      Filled reference hypothesis (fun _ _ => True) t := by
  obtain ⟨t, ht, hcolumn⟩ := foldlM_range' (n := reference.length)
    (f := fun (t : Tables) i => t.write i 0 i .deleted)
    (fun k t => Filled reference hypothesis (fun i j => j = 0 ∧ i ≤ k) t) (by
      intro k t hk h
      have hword := upTo_succ (List.getElem?_eq_getElem hk)
      have hvalue : k + 1 = distance (upTo reference (k + 1)) (upTo hypothesis 0) := by
        rw [upTo_zero, distance_nil, upTo_length hk]
      have hop : Back.deleted = chosen (upTo reference (k + 1)) (upTo hypothesis 0) := by
        rw [hword]
        rfl
      obtain ⟨t', ht', h'⟩ := h.write hk (Nat.zero_le _) hvalue hop
      exact ⟨t', ht', h'.mono fun i j _ _ hd => by omega⟩)
    (filled_start reference hypothesis)
  obtain ⟨u, hu, hrow⟩ := foldlM_range' (n := hypothesis.length)
    (f := fun (t : Tables) j => t.write 0 j j .inserted)
    (fun k t => Filled reference hypothesis (fun i j => j = 0 ∨ (i = 0 ∧ j ≤ k)) t) (by
      intro k t hk h
      have hword := upTo_succ (List.getElem?_eq_getElem hk)
      have hvalue : k + 1 = distance (upTo reference 0) (upTo hypothesis (k + 1)) := by
        rw [upTo_zero, distance, upTo_length hk]
      have hop : Back.inserted = chosen (upTo reference 0) (upTo hypothesis (k + 1)) := by
        rw [hword]
        rfl
      obtain ⟨t', ht', h'⟩ := h.write (Nat.zero_le _) hk hvalue hop
      exact ⟨t', ht', h'.mono fun i j _ _ hd => by omega⟩)
    (hcolumn.mono fun i j hi _ hd => by omega)
  obtain ⟨v, hv, hall⟩ := foldlM_range' (n := reference.length)
    (f := fun t i => (List.range' 1 hypothesis.length).foldlM (cell reference hypothesis i) t)
    (fun k t => Filled reference hypothesis (fun i j => i = 0 ∨ j = 0 ∨ i ≤ k) t) (by
      intro k t hk h
      obtain ⟨t', ht', h'⟩ := foldlM_range' (n := hypothesis.length)
        (f := cell reference hypothesis (k + 1))
        (fun l t => Filled reference hypothesis
          (fun i j => i = 0 ∨ j = 0 ∨ i ≤ k ∨ (i = k + 1 ∧ j ≤ l)) t) (by
          intro l t hl h
          obtain ⟨t', ht', h'⟩ := h.cell hk hl (by omega) (by omega) (by omega)
          exact ⟨t', ht', h'.mono fun i j _ _ hd => by omega⟩)
        (h.mono fun i j _ _ hd => by omega)
      exact ⟨t', ht', h'.mono fun i j _ hj hd => by omega⟩)
    (hrow.mono fun i j _ hj hd => by omega)
  refine ⟨v, ?_, hall.mono fun i j hi _ _ => by omega⟩
  unfold fill
  simp only [Option.bind_eq_bind]
  rw [ht, Option.bind_some, hu, Option.bind_some, hv]

/-! ## The walk back -/

/-- The distance of two lists, by what is chosen for their first elements. -/
theorem distance_chosen (x y : String) (a b : List String) :
    (chosen (x :: a) (y :: b) = .same ∧ x = y ∧ distance (x :: a) (y :: b) = distance a b) ∨
    (chosen (x :: a) (y :: b) = .substituted ∧
      distance (x :: a) (y :: b) = distance a b + 1) ∨
    (chosen (x :: a) (y :: b) = .deleted ∧
      distance (x :: a) (y :: b) = distance a (y :: b) + 1) ∨
    (chosen (x :: a) (y :: b) = .inserted ∧
      distance (x :: a) (y :: b) = distance (x :: a) b + 1) := by
  simp only [chosen]
  by_cases hxy : x = y
  · rw [if_pos hxy, distance, if_pos hxy]
    exact .inl ⟨rfl, hxy, rfl⟩
  · rw [if_neg hxy]
    by_cases hsub : distance (x :: a) (y :: b) = distance a b + 1
    · rw [if_pos hsub]
      exact .inr (.inl ⟨rfl, hsub⟩)
    · rw [if_neg hsub]
      by_cases hdele : distance (x :: a) (y :: b) = distance a (y :: b) + 1
      · rw [if_pos hdele]
        exact .inr (.inr (.inl ⟨rfl, hdele⟩))
      · rw [if_neg hdele]
        refine .inr (.inr (.inr ⟨rfl, ?_⟩))
        rw [distance, if_neg hxy] at hsub hdele ⊢
        omega

/-- What a walk over so many more operations counts. -/
def Counts.over (c : Counts) (ops : List Op) : Counts where
  subs := c.subs + ops.count .substitute
  dels := c.dels + ops.count .delete
  inss := c.inss + ops.count .insert

@[simp] theorem Counts.over_nil (c : Counts) : c.over [] = c := rfl

@[simp] theorem Counts.over_keep (c : Counts) (ops : List Op) :
    c.over (.keep :: ops) = c.over ops := by
  simp [Counts.over]

@[simp] theorem Counts.over_substitute (c : Counts) (ops : List Op) :
    c.over (.substitute :: ops) = Counts.over { c with subs := c.subs + 1 } ops := by
  simp [Counts.over]
  omega

@[simp] theorem Counts.over_delete (c : Counts) (ops : List Op) :
    c.over (.delete :: ops) = Counts.over { c with dels := c.dels + 1 } ops := by
  simp [Counts.over]
  omega

@[simp] theorem Counts.over_insert (c : Counts) (ops : List Op) :
    c.over (.insert :: ops) = Counts.over { c with inss := c.inss + 1 } ops := by
  simp [Counts.over]
  omega

/-- From the place `(i, j)` the walk counts `ops`, with any more turns than `i + j`. -/
def Walks (back : Grid Back) (i j : Nat) (ops : List Op) : Prop :=
  ∀ fuel c, i + j < fuel → backtrace back fuel i j c = some (c.over ops)

section

variable {back : Grid Back} {i j : Nat} {ops : List Op}

theorem Walks.start (back : Grid Back) : Walks back 0 0 [] := by
  intro fuel c hfuel
  obtain ⟨fuel, rfl⟩ := Nat.exists_eq_add_one.mpr hfuel
  simp [backtrace]

theorem Walks.same (h : Walks back i j ops) (hmark : back.get? (i + 1) (j + 1) = some .same) :
    Walks back (i + 1) (j + 1) (.keep :: ops) := by
  intro fuel c hfuel
  obtain ⟨fuel, rfl⟩ := Nat.exists_eq_add_one.mpr (by omega : 0 < fuel)
  simp [backtrace, hmark, pred, h fuel c (by omega)]

theorem Walks.substituted (h : Walks back i j ops)
    (hmark : back.get? (i + 1) (j + 1) = some .substituted) :
    Walks back (i + 1) (j + 1) (.substitute :: ops) := by
  intro fuel c hfuel
  obtain ⟨fuel, rfl⟩ := Nat.exists_eq_add_one.mpr (by omega : 0 < fuel)
  simp [backtrace, hmark, pred, h fuel _ (by omega)]

theorem Walks.deleted (h : Walks back i j ops) (hmark : back.get? (i + 1) j = some .deleted) :
    Walks back (i + 1) j (.delete :: ops) := by
  intro fuel c hfuel
  obtain ⟨fuel, rfl⟩ := Nat.exists_eq_add_one.mpr (by omega : 0 < fuel)
  simp [backtrace, hmark, pred, h fuel _ (by omega)]

theorem Walks.inserted (h : Walks back i j ops) (hmark : back.get? i (j + 1) = some .inserted) :
    Walks back i (j + 1) (.insert :: ops) := by
  intro fuel c hfuel
  obtain ⟨fuel, rfl⟩ := Nat.exists_eq_add_one.mpr (by omega : 0 < fuel)
  simp [backtrace, hmark, pred, h fuel _ (by omega)]

end

/-- From every place the walk counts a best alignment of the words before it. -/
theorem backtrace_counts {back : Grid Back}
    (hback : ∀ i j, i ≤ reference.length → j ≤ hypothesis.length →
      back.get? i j = some (chosen (upTo reference i) (upTo hypothesis j)))
    (n i j : Nat) (hsum : i + j ≤ n) (hi : i ≤ reference.length) (hj : j ≤ hypothesis.length) :
    ∃ ops, Aligned ops (upTo reference i) (upTo hypothesis j) ∧
      cost ops = distance (upTo reference i) (upTo hypothesis j) ∧ Walks back i j ops := by
  induction n generalizing i j with
  | zero =>
    obtain ⟨rfl, rfl⟩ := Nat.add_eq_zero_iff.mp (Nat.le_zero.mp hsum)
    refine ⟨[], .nil, ?_, .start back⟩
    rw [upTo_zero, upTo_zero, distance]
    rfl
  | succ n ih =>
    have hmark := hback i j hi hj
    cases i with
    | zero =>
      cases j with
      | zero => exact ih 0 0 (Nat.zero_le n) hi hj
      | succ j =>
        have hheard := upTo_succ (List.getElem?_eq_getElem (l := hypothesis) hj)
        obtain ⟨ops, haligned, hcost, hwalks⟩ := ih 0 j (by omega) hi (by omega)
        rw [upTo_zero, hheard] at hmark ⊢
        rw [upTo_zero, distance] at hcost
        refine ⟨.insert :: ops, .insert _ haligned, ?_, hwalks.inserted hmark⟩
        rw [cost_cons (by decide), hcost, distance, List.length_cons]
    | succ i =>
      have hword := upTo_succ (List.getElem?_eq_getElem (l := reference) hi)
      cases j with
      | zero =>
        obtain ⟨ops, haligned, hcost, hwalks⟩ := ih i 0 (by omega) (by omega) hj
        rw [upTo_zero, hword] at hmark ⊢
        rw [upTo_zero, distance_nil] at hcost
        refine ⟨.delete :: ops, .delete _ haligned, ?_, hwalks.deleted hmark⟩
        rw [cost_cons (by decide), hcost, distance_nil, List.length_cons]
      | succ j =>
        have hheard := upTo_succ (List.getElem?_eq_getElem (l := hypothesis) hj)
        rcases distance_chosen reference[i] hypothesis[j] (upTo reference i) (upTo hypothesis j)
          with ⟨hchosen, hsame, hdistance⟩ | ⟨hchosen, hdistance⟩ | ⟨hchosen, hdistance⟩ |
            ⟨hchosen, hdistance⟩
        · obtain ⟨ops, haligned, hcost, hwalks⟩ := ih i j (by omega) (by omega) (by omega)
          rw [hword, hheard, hchosen] at hmark
          rw [hword, hheard]
          refine ⟨.keep :: ops, ?_, ?_, hwalks.same hmark⟩
          · rw [hsame]
            exact .keep _ haligned
          · rw [cost_keep, hcost, hdistance]
        · obtain ⟨ops, haligned, hcost, hwalks⟩ := ih i j (by omega) (by omega) (by omega)
          rw [hword, hheard, hchosen] at hmark
          rw [hword, hheard]
          refine ⟨.substitute :: ops, .substitute _ _ haligned, ?_, hwalks.substituted hmark⟩
          rw [cost_cons (by decide), hcost, hdistance]
        · obtain ⟨ops, haligned, hcost, hwalks⟩ := ih i (j + 1) (by omega) (by omega) hj
          rw [hword, hheard, hchosen] at hmark
          rw [hheard] at haligned hcost
          rw [hword, hheard]
          refine ⟨.delete :: ops, .delete _ haligned, ?_, hwalks.deleted hmark⟩
          rw [cost_cons (by decide), hcost, hdistance]
        · obtain ⟨ops, haligned, hcost, hwalks⟩ := ih (i + 1) j (by omega) hi (by omega)
          rw [hword, hheard, hchosen] at hmark
          rw [hword] at haligned hcost
          rw [hword, hheard]
          refine ⟨.insert :: ops, .insert _ haligned, ?_, hwalks.inserted hmark⟩
          rw [cost_cons (by decide), hcost, hdistance]

end

/-- The whole list, the last word first. -/
theorem upTo_all (words : List String) : upTo words words.length = words.reverse := by
  rw [upTo, List.take_length]

/-- For every two word lists `wer` ends, with the length of the shortest script
from the one to the other and with the counts of a script of that length. -/
theorem wer_counts_a_shortest_script (reference hypothesis : List String) :
    ∃ subs dels inss dist,
      (∀ fuel, reference.length + hypothesis.length < fuel →
        wer reference hypothesis fuel = some (subs, dels, inss, dist)) ∧
      Script reference hypothesis dist ∧
      (∀ n, Script reference hypothesis n → dist ≤ n) ∧
      subs + dels + inss = dist ∧
      (reference.length : Int) - dels = hypothesis.length - inss ∧
      ∃ ops, Aligned ops reference hypothesis ∧ ops.count .substitute = subs ∧
        ops.count .delete = dels ∧ ops.count .insert = inss := by
  obtain ⟨t, ht, hfilled⟩ := fill_filled reference hypothesis
  have hdist := hfilled.dist _ _ le_rfl le_rfl trivial
  obtain ⟨ops, haligned, hcost, hwalks⟩ := backtrace_counts
    (fun i j hi hj => hfilled.back i j hi hj trivial) _ _ _ le_rfl le_rfl le_rfl
  rw [upTo_all, upTo_all] at hdist haligned hcost
  have hforward := haligned.reverse
  rw [List.reverse_reverse, List.reverse_reverse] at hforward
  refine ⟨ops.count .substitute, ops.count .delete, ops.count .insert,
    distance reference.reverse hypothesis.reverse, ?_, ?_, ?_, ?_, ?_, ?_⟩
  · intro fuel hfuel
    unfold wer
    simp [ht, hwalks fuel {} hfuel, hdist, Counts.over]
  · have hscript := haligned.script.reverse
    rwa [hcost, List.reverse_reverse, List.reverse_reverse] at hscript
  · intro n hscript
    obtain ⟨ops', haligned', hle⟩ := hscript.reverse.aligned
    exact (distance_le haligned').trans hle
  · rw [← hcost, cost_eq]
  · have hlength := haligned.length
    rw [List.length_reverse, List.length_reverse] at hlength
    omega
  · exact ⟨_, hforward, List.count_reverse, List.count_reverse, List.count_reverse⟩

example :
    wer ["it", "was", "a", "dark", "night"] ["it", "is", "dark", "night", "now"] 11 =
      some (1, 1, 1, 3) := by
  decide +kernel

end lad_translate.score_stt
