-- What a phone pulls (api/static/join.js, api/join.py, session/room.py): the
-- one track that its pass names. The globals of the page are written by
-- answers that come in any order, and the invariant says which room they are about.
import LadTranslate.Audience
import LadTranslate.Playout

open fallible machines tables

namespace lad_translate.join_page

open api config sessions canonical

/-! ## The rooms of a page -/

namespace Joining

/-- The room takes no track but the one of its pass. -/
def OwnTrack (j : Joining) : Prop :=
  ∀ name ∈ j.subscribed, ∃ pass, j.pass = some pass ∧ name = pass.track_name

/-- The room takes the track of its pass wherever it is published. -/
def Takes (j : Joining) : Prop :=
  ∀ pass, j.pass = some pass → pass.track_name ∈ j.published → pass.track_name ∈ j.subscribed

/-- No other pass, and no track that was not taken before. -/
structure Narrows (j j' : Joining) : Prop where
  pass : j'.pass = j.pass
  progress : j.progress ≠ .requested → j'.progress ≠ .requested
  subscribed : ∀ name ∈ j'.subscribed, name ∈ j.subscribed

theorem narrows_settle (j : Joining) : j.Narrows j.settle :=
  ⟨rfl, fun _ => by simp [settle], fun _ h => h⟩

theorem narrows_close (j : Joining) : j.Narrows j.close := ⟨rfl, id, fun _ h => (by cases h)⟩

theorem mem_subscribe {wanted : Option String} {j : Joining} {name : String}
    (h : name ∈ (j.subscribe wanted).subscribed) : name ∈ j.subscribed ∨ some name = wanted := by
  unfold subscribe at h
  split at h
  · rcases List.mem_append.mp h with h | h
    · exact .inl h
    · have hname := (List.mem_filter.mp h).2
      rw [decide_eq_true_eq] at hname
      exact .inr hname.1
  · exact .inl h

@[simp] theorem subscribe_pass (wanted : Option String) (j : Joining) :
    (j.subscribe wanted).pass = j.pass := by
  unfold subscribe
  split <;> rfl

@[simp] theorem subscribe_progress (wanted : Option String) (j : Joining) :
    (j.subscribe wanted).progress = j.progress := by
  unfold subscribe
  split <;> rfl

@[simp] theorem subscribe_language (wanted : Option String) (j : Joining) :
    (j.subscribe wanted).language = j.language := by
  unfold subscribe
  split <;> rfl

@[simp] theorem subscribe_link (wanted : Option String) (j : Joining) :
    (j.subscribe wanted).link = j.link := by
  unfold subscribe
  split <;> rfl

theorem takes_subscribe {j : Joining} {pass : ListenerPass} (hpass : j.pass = some pass)
    (hlink : j.link = .connected) : (j.subscribe (some pass.track_name)).Takes := by
  intro pass' hpass' hpublished
  rw [subscribe_pass, hpass] at hpass'
  obtain rfl := Option.some.inj hpass'
  unfold subscribe at hpublished ⊢
  rw [if_pos hlink] at hpublished ⊢
  by_cases hold : pass.track_name ∈ j.subscribed
  · exact List.mem_append_left _ hold
  · apply List.mem_append_right
    rw [List.mem_filter, decide_eq_true_eq]
    exact ⟨hpublished, rfl, hold⟩

end Joining

namespace Page

variable {beacon : Bool} {s t : Page} {i : Nat} {f : Joining → Joining}

/-- No room takes a track but that of its own pass, and the page's globals are
about the page's room. -/
structure Own (s : Page) : Prop where
  room : ∀ i, s.room = some i → ∃ j pass, s.joins[i]? = some j ∧ j.pass = some pass ∧
    s.wantedTrack = some pass.track_name ∧ j.progress ≠ .requested
  track : ∀ (i : Nat) (j : Joining), s.joins[i]? = some j → j.OwnTrack

/-- The page's room takes its track, once the chain of promises is at its end. -/
def Taken (s : Page) : Prop :=
  ∀ (i : Nat) (j : Joining), s.room = some i → s.joins[i]? = some j → j.progress = .settled →
    j.link = .connected → j.Takes

theorem Own.of_eq (hs : Own s) (hroom : t.room = s.room) (hwanted : t.wantedTrack = s.wantedTrack)
    (hjoins : t.joins = s.joins) : Own t := by
  refine ⟨?_, ?_⟩
  · rw [hroom, hwanted, hjoins]
    exact hs.room
  · rw [hjoins]
    exact hs.track

theorem Taken.of_eq (hs : Taken s) (hroom : t.room = s.room) (hjoins : t.joins = s.joins) :
    Taken t := by
  unfold Taken
  rw [hroom, hjoins]
  exact hs

theorem taken_none (hroom : s.room = none) : Taken s := by
  intro i j hi
  rw [hroom] at hi
  cases hi

theorem joins_update {k : Nat} {j : Joining} (hj : s.joins[k]? = some j) :
    (s.update i f).joins[k]? = some (if i = k then f j else j) := by
  rw [update, List.getElem?_modify, hj]
  rfl

/-- A change of one request that gives it no other pass, and asks for no track. -/
theorem own_update (hs : Own s) (hf : ∀ j, s.joins[i]? = some j → j.Narrows (f j)) :
    Own (s.update i f) := by
  refine ⟨?_, ?_⟩
  · intro k hk
    obtain ⟨j, pass, hj, hpass, hwanted, hprogress⟩ := hs.room k hk
    by_cases hik : i = k
    · subst hik
      have hnarrow := hf j hj
      exact ⟨f j, pass, (joins_update hj).trans (by rw [if_pos rfl]), hnarrow.pass.trans hpass,
        hwanted, hnarrow.progress hprogress⟩
    · exact ⟨j, pass, (joins_update hj).trans (by rw [if_neg hik]), hpass, hwanted, hprogress⟩
  · intro k j' hj' name hname
    obtain ⟨j, hj, rfl⟩ := update_joins hj'
    by_cases hik : i = k
    · subst hik
      have hnarrow := hf j hj
      rw [if_pos rfl] at hname ⊢
      rw [hnarrow.pass]
      exact hs.track i j hj name (hnarrow.subscribed name hname)
    · rw [if_neg hik] at hname ⊢
      exact hs.track k j hj name hname

theorem taken_update (hs : Taken s) (hf : ∀ j, s.joins[i]? = some j → s.room = some i →
      (f j).progress = .settled → (f j).link = .connected → (f j).Takes) : Taken (s.update i f) := by
  intro k j' hk hj' hsettled hlink
  obtain ⟨j, hj, rfl⟩ := update_joins hj'
  by_cases hik : i = k
  · subst hik
    rw [if_pos rfl] at hsettled hlink ⊢
    exact hf j hj hk hsettled hlink
  · rw [if_neg hik] at hsettled hlink ⊢
    exact hs k j hk hj hsettled hlink

/-- `subscribeToWanted` asks for the track of the page's room alone. -/
theorem own_subscribeToWanted (hs : Own s) : Own s.subscribeToWanted := by
  cases hroom : s.room with
  | none =>
    rw [subscribeToWanted, hroom]
    exact hs
  | some i =>
    obtain ⟨j, pass, hj, hpass, hwanted, hprogress⟩ := hs.room i hroom
    have heq : s.subscribeToWanted = s.update i (Joining.subscribe s.wantedTrack) := by
      rw [subscribeToWanted, hroom]
    rw [heq]
    refine ⟨?_, ?_⟩
    · intro k hk
      have hki : k = i := Option.some.inj (hk.symm.trans hroom)
      subst hki
      refine ⟨j.subscribe s.wantedTrack, pass, ?_, ?_, hwanted, ?_⟩
      · exact (joins_update hj).trans (by rw [if_pos rfl])
      · rw [Joining.subscribe_pass, hpass]
      · rw [Joining.subscribe_progress]
        exact hprogress
    · intro k j' hj' name hname
      obtain ⟨j₀, hj₀, rfl⟩ := update_joins hj'
      by_cases hik : i = k
      · subst hik
        rw [hj] at hj₀
        obtain rfl := Option.some.inj hj₀
        rw [if_pos rfl] at hname ⊢
        rw [Joining.subscribe_pass]
        rcases Joining.mem_subscribe hname with hold | hnew
        · exact hs.track i j hj name hold
        · rw [hwanted] at hnew
          exact ⟨pass, hpass, Option.some.inj hnew⟩
      · rw [if_neg hik] at hname ⊢
        exact hs.track k j₀ hj₀ name hname

/-- Whatever the page's room lacked before. -/
theorem taken_subscribeToWanted (hs : Own s) : Taken s.subscribeToWanted := by
  cases hroom : s.room with
  | none =>
    rw [subscribeToWanted, hroom]
    exact taken_none hroom
  | some i =>
    obtain ⟨j, pass, hj, hpass, hwanted, -⟩ := hs.room i hroom
    rw [subscribeToWanted, hroom]
    intro k j' hk hj' _ hlink
    have hki : k = i := Option.some.inj (hk.symm.trans hroom)
    subst hki
    obtain ⟨j₀, hj₀, rfl⟩ := update_joins hj'
    rw [hj] at hj₀
    obtain rfl := Option.some.inj hj₀
    rw [if_pos rfl] at hlink ⊢
    rw [Joining.subscribe_link] at hlink
    rw [hwanted]
    exact Joining.takes_subscribe hpass hlink

/-! ## What every step of a page keeps -/

/-- Own and taken, at once. -/
structure Pulls (s : Page) : Prop where
  own : Own s
  taken : Taken s

theorem Pulls.of_eq (hs : Pulls s) (hroom : t.room = s.room) (hwanted : t.wantedTrack = s.wantedTrack)
    (hjoins : t.joins = s.joins) : Pulls t :=
  ⟨hs.own.of_eq hroom hwanted hjoins, hs.taken.of_eq hroom hjoins⟩

theorem own_stands {p : Joining → Prop} (hs : Own s) (hi : s.Stands i p)
    (hf : ∀ j, p j → j.Narrows (f j)) : Own (s.update i f) := by
  obtain ⟨j, hj, hp⟩ := hi
  refine own_update hs fun j' hj' => ?_
  rw [hj] at hj'
  obtain rfl := Option.some.inj hj'
  exact hf j hp

/-- A change of a request whose chain is not at its end, or whose room is closed. -/
theorem pulls_stands {p : Joining → Prop} (hs : Pulls s) (hi : s.Stands i p)
    (hf : ∀ j, p j → j.Narrows (f j))
    (hrest : ∀ j, p j → s.room = some i → j.progress ≠ .requested →
      (f j).progress = .settled → (f j).link = .connected → False) : Pulls (s.update i f) := by
  refine ⟨own_stands hs.own hi hf, ?_⟩
  obtain ⟨j, hj, hp⟩ := hi
  refine taken_update hs.taken fun j' hj' hroom hsettled hlink => ?_
  obtain ⟨j₀, -, hj₀, -, -, hprogress⟩ := hs.own.room i hroom
  rw [hj] at hj' hj₀
  obtain rfl := Option.some.inj hj'
  obtain rfl := Option.some.inj hj₀
  exact (hrest j hp hroom hprogress hsettled hlink).elim

theorem pulls_subscribeToWanted (hs : Own s) : Pulls s.subscribeToWanted :=
  ⟨own_subscribeToWanted hs, taken_subscribeToWanted hs⟩

theorem pulls_disconnect (hs : Own s) : Pulls s.disconnect := by
  have hclosed : ∀ (i : Nat) (j : Joining), s.closeRoom.joins[i]? = some j → j.OwnTrack := by
    unfold closeRoom
    split
    · exact hs.track
    · exact (own_update hs fun j _ => j.narrows_close).track
  have hroom : s.closeRoom.room = none := by
    unfold closeRoom
    split
    · assumption
    · rfl
  refine ⟨⟨fun i hi => ?_, hclosed⟩, taken_none hroom⟩
  rw [show s.disconnect.room = none from hroom] at hi
  cases hi

theorem pulls_leave (beacon : Bool) (hs : Pulls s) : Pulls (s.leave beacon) := by
  unfold leave
  split
  · exact hs
  · split
    · exact hs
    · exact hs.of_eq rfl rfl rfl

theorem pulls_choose (hs : Pulls s) (joined : Joining) (hnew : joined.subscribed = [])
    (hroom : t.room = s.room) (hwanted : t.wantedTrack = s.wantedTrack)
    (hjoins : t.joins = s.joins ++ [joined]) : Pulls t := by
  have hold : ∀ {i : Nat} {j : Joining}, s.joins[i]? = some j → t.joins[i]? = some j := by
    intro i j hj
    rw [hjoins, List.getElem?_append_left (List.getElem?_eq_some_iff.mp hj).1]
    exact hj
  refine ⟨⟨?_, ?_⟩, ?_⟩
  · intro i hi
    obtain ⟨j, pass, hj, hrest⟩ := hs.own.room i (hroom ▸ hi)
    exact ⟨j, pass, hold hj, hwanted ▸ hrest⟩
  · intro i j hj
    rw [hjoins, List.getElem?_append] at hj
    split at hj
    · exact hs.own.track i j hj
    · obtain rfl := List.mem_singleton.mp (List.mem_of_getElem? hj)
      intro name hname
      rw [hnew] at hname
      cases hname
  · intro i j hi hj
    obtain ⟨j₀, -, hj₀, -⟩ := hs.own.room i (hroom ▸ hi)
    obtain rfl := Option.some.inj ((hold hj₀).symm.trans hj)
    exact hs.taken i _ (hroom ▸ hi) hj₀

theorem pulls_grant {pass : ListenerPass} (hs : Pulls s) (hi : s.Stands i (·.progress = .requested)) :
    Pulls (s.grant i pass) := by
  obtain ⟨j, hj, -⟩ := hi
  have hgrant : (s.grant i pass).joins[i]? = some (j.letIn pass) :=
    (joins_update hj).trans (by rw [if_pos rfl])
  refine ⟨⟨?_, ?_⟩, ?_⟩
  · intro k hk
    obtain rfl := Option.some.inj hk
    exact ⟨_, pass, hgrant, rfl, rfl, by simp [Joining.letIn]⟩
  · intro k j' hj' name hname
    obtain ⟨j₀, hj₀, rfl⟩ := update_joins hj'
    split at hname
    · cases hname
    · rename_i hik
      rw [if_neg hik]
      exact hs.own.track k j₀ hj₀ name hname
  · intro k j' hk hj' hsettled
    obtain rfl := Option.some.inj hk
    rw [hgrant] at hj'
    obtain rfl := Option.some.inj hj'
    cases hsettled

theorem pulls_step {e : Event} (hs : Pulls s) (h : s.step beacon e = some t) : Pulls t := by
  cases e with
  | loaded | loadFailed | timeout =>
    obtain ⟨-, ⟨⟩⟩ := Option.ite_none_right_eq_some.mp h
    exact hs.of_eq rfl rfl rfl
  | choose lang =>
    obtain ⟨-, ⟨⟩⟩ := Option.ite_none_right_eq_some.mp h
    exact pulls_choose hs { language := lang } rfl rfl rfl rfl
  | change =>
    obtain ⟨-, ⟨⟩⟩ := Option.ite_none_right_eq_some.mp h
    exact (pulls_disconnect (pulls_leave beacon hs).own).of_eq rfl rfl rfl
  | retry =>
    obtain ⟨-, ⟨⟩⟩ := Option.ite_none_right_eq_some.mp h
    exact (pulls_disconnect hs.own).of_eq rfl rfl rfl
  | granted i pass =>
    obtain ⟨hi, ⟨⟩⟩ := Option.ite_none_right_eq_some.mp h
    exact pulls_grant hs hi
  | refused i =>
    obtain ⟨hi, ⟨⟩⟩ := Option.ite_none_right_eq_some.mp h
    refine (pulls_stands hs hi (fun j _ => j.narrows_settle) ?_).of_eq rfl rfl rfl
    exact fun j hrequested _ hprogress _ _ => hprogress hrequested
  | connected i published =>
    obtain ⟨hi, h⟩ := Option.ite_none_right_eq_some.mp h
    have hopen : ∀ (j : Joining) (progress : Progress), progress ≠ .requested →
        j.Narrows { j with progress, link := .connected, published := published } :=
      fun j progress hne => ⟨rfl, fun _ => hne, fun _ h => h⟩
    split at h
    · rename_i hroom
      cases h
      have hown := own_stands hs.own hi fun j _ => hopen j .settled (by simp)
      exact Pulls.of_eq ⟨hown, taken_none hroom⟩ rfl rfl rfl
    · cases h
      refine pulls_stands hs hi (fun j _ => hopen j .starting (by simp)) ?_
      intro j _ _ _ hsettled
      cases hsettled
  | connectFailed i =>
    obtain ⟨hi, ⟨⟩⟩ := Option.ite_none_right_eq_some.mp h
    have hclose : ∀ j : Joining, j.Narrows j.close.settle := fun j =>
      ⟨rfl, j.close.narrows_settle.progress, fun _ h => (by cases h)⟩
    refine (pulls_stands hs hi (fun j _ => hclose j) ?_).of_eq rfl rfl rfl
    intro j _ _ _ _ hlink
    cases hlink
  | audioStarted i =>
    obtain ⟨hi, ⟨⟩⟩ := Option.ite_none_right_eq_some.mp h
    have hown := own_stands hs.own hi fun j _ => j.narrows_settle
    exact (pulls_subscribeToWanted hown).of_eq rfl rfl rfl
  | trackPublished i name =>
    obtain ⟨hi, ⟨⟩⟩ := Option.ite_none_right_eq_some.mp h
    exact pulls_subscribeToWanted (own_stands hs.own hi fun _ _ => ⟨rfl, id, fun _ h => h⟩)
  | trackSubscribed i name =>
    obtain ⟨hi, h⟩ := Option.ite_none_right_eq_some.mp h
    split at h
    · rename_i hother
      cases h
      have hdrop : ∀ j : Joining,
          j.Narrows { j with subscribed := j.subscribed.filter (· ≠ name) } :=
        fun j => ⟨rfl, id, fun _ h => List.mem_of_mem_filter h⟩
      refine ⟨own_stands hs.own hi fun j _ => hdrop j, ?_⟩
      refine taken_update hs.taken fun j hj hroom hsettled hlink pass hpass hpublished => ?_
      -- the page's room drops no track of its own
      obtain ⟨j₀, pass₀, hj₀, hpass₀, hwanted, -⟩ := hs.own.room i hroom
      rw [hj] at hj₀
      obtain rfl := Option.some.inj hj₀
      have hsame : pass₀ = pass := Option.some.inj (hpass₀.symm.trans hpass)
      rw [List.mem_filter, decide_eq_true_eq]
      refine ⟨hs.taken i j hroom hj hsettled hlink pass hpass hpublished, fun hname => hother ?_⟩
      rw [hwanted, hsame, hname]
    · cases h
      exact hs.of_eq rfl rfl rfl
  | reconnected i =>
    obtain ⟨-, ⟨⟩⟩ := Option.ite_none_right_eq_some.mp h
    exact pulls_subscribeToWanted hs.own
  | dropped i =>
    obtain ⟨hi, ⟨⟩⟩ := Option.ite_none_right_eq_some.mp h
    refine pulls_stands hs hi (fun j _ => j.narrows_close) ?_
    intro j _ _ _ _ hlink
    cases hlink

theorem pulls_start : Pulls ({} : Page) := by
  refine ⟨⟨fun _ h => (by cases h), fun i j hj => ?_⟩, taken_none rfl⟩
  rw [List.getElem?_nil] at hj
  cases hj

/-! ## Whose pass a room has -/

/-- The requests stay what they were, and none of them gets a pass. -/
structure Keeps (s t : Page) : Prop where
  found : ∀ (i : Nat) (j : Joining), s.joins[i]? = some j →
    ∃ j', t.joins[i]? = some j' ∧ j'.language = j.language
  passes : ∀ (i : Nat) (j' : Joining) (pass : ListenerPass), t.joins[i]? = some j' →
    j'.pass = some pass → ∃ j, s.joins[i]? = some j ∧ j.pass = some pass

theorem Keeps.of_eq (hjoins : t.joins = s.joins) : Keeps s t :=
  ⟨fun _ j hj => ⟨j, hjoins ▸ hj, rfl⟩, fun _ j _ hj hpass => ⟨j, hjoins ▸ hj, hpass⟩⟩

theorem Keeps.trans {u : Page} (hst : Keeps s t) (htu : Keeps t u) : Keeps s u where
  found i j hj := by
    obtain ⟨j₁, hj₁, hsame₁⟩ := hst.found i j hj
    obtain ⟨j₂, hj₂, hsame₂⟩ := htu.found i j₁ hj₁
    exact ⟨j₂, hj₂, hsame₂.trans hsame₁⟩
  passes i j pass hj hpass := by
    obtain ⟨j₁, hj₁, hpass₁⟩ := htu.passes i j pass hj hpass
    exact hst.passes i j₁ pass hj₁ hpass₁

theorem keeps_update (hjoins : t.joins = (s.update i f).joins)
    (hf : ∀ j, (f j).language = j.language ∧ (f j).pass = j.pass) : Keeps s t := by
  refine Keeps.trans (t := s.update i f) ?_ (.of_eq hjoins)
  refine ⟨fun k j hj => ⟨_, joins_update hj, ?_⟩, fun k j' pass hj' hpass => ?_⟩
  · split
    · exact (hf j).1
    · rfl
  · obtain ⟨j, hj, rfl⟩ := update_joins hj'
    refine ⟨j, hj, ?_⟩
    split at hpass
    · exact (hf j).2 ▸ hpass
    · exact hpass

theorem keeps_subscribe (s : Page) : Keeps s s.subscribeToWanted := by
  unfold subscribeToWanted
  split
  · exact .of_eq rfl
  · exact keeps_update rfl fun j => ⟨j.subscribe_language _, j.subscribe_pass _⟩

theorem keeps_disconnect (s : Page) : Keeps s s.disconnect := by
  unfold disconnect closeRoom
  split
  · exact .of_eq rfl
  · exact keeps_update (f := Joining.close) rfl fun _ => ⟨rfl, rfl⟩

theorem keeps_leave (beacon : Bool) (s : Page) : Keeps s (s.leave beacon) := by
  unfold leave
  split
  · exact .of_eq rfl
  · split <;> exact .of_eq rfl

theorem keeps_choose (joined : Joining) (hnew : joined.pass = none)
    (hjoins : t.joins = s.joins ++ [joined]) : Keeps s t := by
  refine ⟨fun i j hj => ⟨j, ?_, rfl⟩, fun i j' pass hj' hpass => ?_⟩
  · rw [hjoins, List.getElem?_append_left (List.getElem?_eq_some_iff.mp hj).1]
    exact hj
  · rw [hjoins, List.getElem?_append] at hj'
    split at hj'
    · exact ⟨j', hj', hpass⟩
    · obtain rfl := List.mem_singleton.mp (List.mem_of_getElem? hj')
      rw [hnew] at hpass
      cases hpass

/-- Whatever happens at a page, but that a pass comes. -/
theorem keeps_step {e : Event} (hnot : ∀ i pass, e ≠ .granted i pass) (h : s.step beacon e = some t) :
    Keeps s t := by
  cases e with
  | granted i pass => exact absurd rfl (hnot i pass)
  | choose lang =>
    obtain ⟨-, ⟨⟩⟩ := Option.ite_none_right_eq_some.mp h
    exact keeps_choose { language := lang } rfl rfl
  | change =>
    obtain ⟨-, ⟨⟩⟩ := Option.ite_none_right_eq_some.mp h
    exact ((keeps_leave beacon s).trans (keeps_disconnect _)).trans (.of_eq rfl)
  | retry =>
    obtain ⟨-, ⟨⟩⟩ := Option.ite_none_right_eq_some.mp h
    exact (keeps_disconnect s).trans (.of_eq rfl)
  | refused i | connectFailed i | dropped i =>
    obtain ⟨-, ⟨⟩⟩ := Option.ite_none_right_eq_some.mp h
    exact keeps_update (i := i) rfl fun _ => ⟨rfl, rfl⟩
  | connected i =>
    obtain ⟨-, h⟩ := Option.ite_none_right_eq_some.mp h
    split at h <;> cases h <;> exact keeps_update (i := i) rfl fun _ => ⟨rfl, rfl⟩
  | audioStarted i =>
    obtain ⟨-, ⟨⟩⟩ := Option.ite_none_right_eq_some.mp h
    have hsettle : Keeps s (s.update i Joining.settle) := keeps_update rfl fun _ => ⟨rfl, rfl⟩
    exact (hsettle.trans (keeps_subscribe _)).trans (.of_eq rfl)
  | trackPublished i name =>
    obtain ⟨-, ⟨⟩⟩ := Option.ite_none_right_eq_some.mp h
    refine Keeps.trans ?_ (keeps_subscribe _)
    exact keeps_update rfl fun _ => ⟨rfl, rfl⟩
  | trackSubscribed i name =>
    obtain ⟨-, h⟩ := Option.ite_none_right_eq_some.mp h
    split at h
    · cases h
      exact keeps_update rfl fun _ => ⟨rfl, rfl⟩
    · cases h
      exact .of_eq rfl
  | reconnected =>
    obtain ⟨-, ⟨⟩⟩ := Option.ite_none_right_eq_some.mp h
    exact keeps_subscribe s
  | _ =>
    obtain ⟨-, ⟨⟩⟩ := Option.ite_none_right_eq_some.mp h
    exact .of_eq rfl

theorem passes_of_grant {pass pass' : ListenerPass} {k : Nat} {j' : Joining}
    (hj' : (s.grant i pass).joins[k]? = some j') (hpass : j'.pass = some pass') :
    (k = i ∧ pass' = pass) ∨ ∃ j, s.joins[k]? = some j ∧ j.pass = some pass' := by
  obtain ⟨j, hj, rfl⟩ := update_joins hj'
  split at hpass
  · rename_i hik
    exact .inl ⟨hik.symm, (Option.some.inj hpass).symm⟩
  · exact .inr ⟨j, hj, hpass⟩

end Page

/-! ## The passes of the service -/

section

variable {Uuid : Type} [DecidableEq Uuid] [UuidText Uuid] {app : App} {beacon : Bool}
  {addresses : Nat → Address}

/-- The track that a pass names. -/
def TrackNamed (pass : ListenerPass) : Prop :=
  pass.track_name = if pass.is_source then sourceTrackName else "lang-" ++ pass.language

/-- The track tells the speaker's voice from a translation, and one translation
from another. -/
theorem named_iff {ε : Type} {sdk : room.AudioSdk ε} (translator : room.TranslationRoom sdk)
    {pass : ListenerPass} (hnamed : TrackNamed pass) :
    (pass.track_name = sourceTrackName ↔ pass.is_source = true) ∧
      ∀ language, pass.track_name = (translator.newTrack language).publication.name ↔
        pass.is_source = false ∧ language = pass.language := by
  rw [TrackNamed] at hnamed
  rw [hnamed]
  cases pass.is_source with
  | true =>
    refine ⟨by simp, fun language => ?_⟩
    simpa using fun h => lang_ne_source language h.symm
  | false =>
    refine ⟨by simpa using lang_ne_source pass.language, fun language => ?_⟩
    simp [room.TranslationRoom.newTrack, eq_comm]

theorem track_of_join {db db' : Database Uuid} {request : Request} {address : Address}
    {language : String} {pass : ListenerPass}
    (h : app.post db request (address.join language) = .ok (db', .inl pass)) : TrackNamed pass := by
  obtain ⟨store, session, url, -, h⟩ := issued_of_join h
  unfold App.issueListener at h
  split at h
  · cases h
  · split at h
    · cases h
    · split at h
      · cases h
      · obtain ⟨⟨schema', text⟩, -, h⟩ := bind_eq_ok.mp h
        cases h
        simp [TrackNamed]

namespace Audience

variable {s t : Audience Uuid}

/-- Each pass is about the language of its request, and each room has the pass of
its request. -/
structure Passed (s : Audience Uuid) : Prop where
  pulls : ∀ k, (s.pages k).Pulls
  asked : ∀ g ∈ s.served, ∃ j, (s.pages g.page).joins[g.request]? = some j ∧
    g.pass.language = j.language.code
  named : ∀ g ∈ s.served, TrackNamed g.pass
  passes : ∀ (k i : Nat) (j : Joining) (pass : ListenerPass), (s.pages k).joins[i]? = some j →
    j.pass = some pass → ∃ g ∈ s.served, g.page = k ∧ g.request = i ∧ g.pass = pass

omit [DecidableEq Uuid] [UuidText Uuid] in
/-- Something happens at a page, and no pass comes. -/
theorem passed_atPage (h : Passed s) {k : Nat} {page : Page} (hpulls : page.Pulls)
    (hkeeps : (s.pages k).Keeps page) : Passed (s.atPage k page) := by
  refine ⟨fun l => ?_, fun g hg => ?_, h.named, fun l i j pass hj hpass => ?_⟩
  · by_cases hl : l = k
    · subst hl
      simp only [atPage, Function.update_self]
      exact hpulls
    · simp only [atPage, Function.update_of_ne hl]
      exact h.pulls l
  · obtain ⟨j, hj, hlanguage⟩ := h.asked g hg
    by_cases hk : g.page = k
    · subst hk
      obtain ⟨j', hj', hsame⟩ := hkeeps.found _ j hj
      exact ⟨j', by simpa only [atPage, Function.update_self] using hj', hsame ▸ hlanguage⟩
    · exact ⟨j, by simpa only [atPage, Function.update_of_ne hk] using hj, hlanguage⟩
  · by_cases hl : l = k
    · subst hl
      simp only [atPage, Function.update_self] at hj
      obtain ⟨j₀, hj₀, hpass₀⟩ := hkeeps.passes i j pass hj hpass
      exact h.passes l i j₀ pass hj₀ hpass₀
    · simp only [atPage, Function.update_of_ne hl] at hj
      exact h.passes l i j pass hj hpass

theorem passed_serve (h : Passed s) {k i : Nat} {request : Request} {j : Joining} {address : Address}
    (hj : (s.pages k).joins[i]? = some j) : Passed (serve app address s k i request j) := by
  unfold serve
  simp only
  split
  · rename_i store session db pass hload hpost
    obtain ⟨-, -, -, -, -, -, hlanguage, -⟩ := join_row (k := k) (i := i) hload hpost
    refine ⟨h.pulls, fun g hg => ?_, fun g hg => ?_, fun l i' j' pass' hj' hpass => ?_⟩
    · rcases List.mem_append.mp hg with hg | hg
      · exact h.asked g hg
      · obtain rfl := List.mem_singleton.mp hg
        exact ⟨j, hj, hlanguage⟩
    · rcases List.mem_append.mp hg with hg | hg
      · exact h.named g hg
      · obtain rfl := List.mem_singleton.mp hg
        exact track_of_join hpost
    · obtain ⟨g, hg, hrest⟩ := h.passes l i' j' pass' hj' hpass
      exact ⟨g, List.mem_append_left _ hg, hrest⟩
  · exact h

omit [DecidableEq Uuid] [UuidText Uuid] in
/-- A pass comes to the request that it answers. -/
theorem passed_deliver (h : Passed s) {g : Grant} (hg : g ∈ s.served) {page : Page}
    (hpage : (s.pages g.page).step beacon (.granted g.request g.pass) = some page)
    {replies : List Grant} : Passed { s.atPage g.page page with replies } := by
  have hpulls := Page.pulls_step (h.pulls g.page) hpage
  obtain ⟨-, ⟨⟩⟩ := Option.ite_none_right_eq_some.mp hpage
  refine ⟨fun l => ?_, fun g' hg' => ?_, h.named, fun l i j pass hj hpass => ?_⟩
  · by_cases hl : l = g.page
    · subst hl
      simp only [atPage, Function.update_self]
      exact hpulls
    · simp only [atPage, Function.update_of_ne hl]
      exact h.pulls l
  · obtain ⟨j, hj, hlanguage⟩ := h.asked g' hg'
    by_cases hk : g'.page = g.page
    · simp only [atPage, hk, Function.update_self]
      refine ⟨_, Page.joins_update (hk ▸ hj), ?_⟩
      split
      · exact hlanguage
      · exact hlanguage
    · simp only [atPage, Function.update_of_ne hk]
      exact ⟨j, hj, hlanguage⟩
  · by_cases hl : l = g.page
    · subst hl
      simp only [atPage, Function.update_self] at hj
      rcases Page.passes_of_grant hj hpass with ⟨rfl, rfl⟩ | ⟨j₀, hj₀, hpass₀⟩
      · exact ⟨g, hg, rfl, rfl, rfl⟩
      · exact h.passes _ i j₀ pass hj₀ hpass₀
    · simp only [atPage, Function.update_of_ne hl] at hj
      exact h.passes l i j pass hj hpass

theorem passed_step (h : Passed s) (hreplies : ∀ g ∈ s.replies, g ∈ s.served) {scene : Scene}
    (hstep : s.step app beacon addresses scene = some t) : Passed t := by
  cases scene with
  | page k event =>
    have hkept : ∀ page, (∀ i pass, event ≠ .granted i pass) →
        (s.pages k).step beacon event = some page → Passed (s.atPage k page) :=
      fun page hnot hpage =>
        passed_atPage h (Page.pulls_step (h.pulls k) hpage) (Page.keeps_step hnot hpage)
    cases event with
    | granted i pass => cases hstep
    | _ =>
      obtain ⟨page, hpage, rfl⟩ := Option.map_eq_some_iff.mp hstep
      exact hkept page (by simp) hpage
  | hide k =>
    cases hstep
    exact passed_atPage h (Page.pulls_leave beacon (h.pulls k)) (Page.keeps_leave beacon _)
  | serve k i request =>
    simp only [step] at hstep
    split at hstep
    · cases hstep
    · rename_i j hj
      obtain ⟨-, ⟨⟩⟩ := Option.ite_none_right_eq_some.mp hstep
      exact passed_serve h hj
  | deliver grant =>
    obtain ⟨hgrant, hstep⟩ := Option.ite_none_right_eq_some.mp hstep
    obtain ⟨page, hpage, rfl⟩ := Option.map_eq_some_iff.mp hstep
    exact passed_deliver h (hreplies grant hgrant) hpage
  | notice k now listener_id session_id =>
    obtain ⟨-, hstep⟩ := Option.ite_none_right_eq_some.mp hstep
    split at hstep <;> cases hstep
    · exact ⟨h.pulls, h.asked, h.named, h.passes⟩
    · exact h
  | elsewhere name turn =>
    obtain ⟨-, ⟨⟩⟩ := Option.ite_none_left_eq_some.mp hstep
    exact ⟨h.pulls, h.asked, h.named, h.passes⟩

theorem passed_of_run {scenes : List Scene} (h : (audiences app beacon addresses).run scenes = some s) :
    Passed s := by
  have hboth : Sound s ∧ Passed s := by
    refine (audiences app beacon addresses).invariant (P := fun s => Sound s ∧ Passed s)
      ⟨sound_start, ?_⟩ ?_ ⟨scenes, h⟩
    · refine ⟨fun _ => Page.pulls_start, ?_, ?_, ?_⟩ <;> simp [audiences]
    · rintro u _ _ ⟨hsound, hpassed⟩ hstep
      exact ⟨sound_step hsound hstep, passed_step hpassed hsound.replies hstep⟩
  exact hboth.2

end Audience

/-- However the taps, the answers and the rooms' events are ordered, each room takes
one track, the one that the translator publishes for the language of its request,
or the speaker's own. The page's room takes it wherever it is published. -/
theorem each_room_pulls_the_track_of_its_language {ε : Type} {sdk : room.AudioSdk ε}
    (translator : room.TranslationRoom sdk) (scenes : List Scene) (s : Audience Uuid)
    (hrun : (audiences app beacon addresses).run scenes = some s) (k i : Nat) (j : Joining)
    (hj : (s.pages k).joins[i]? = some j) :
    (∀ name ∈ j.subscribed, ∃ g ∈ s.served, g.page = k ∧ g.request = i ∧ j.pass = some g.pass ∧
      name = g.pass.track_name ∧ (name = sourceTrackName ↔ g.pass.is_source = true) ∧
      ∀ language, name = (translator.newTrack language).publication.name ↔
        g.pass.is_source = false ∧ language = j.language.code) ∧
    ((s.pages k).room = some i → j.progress = .settled → j.link = .connected →
      ∃ pass, j.pass = some pass ∧
        (pass.track_name ∈ j.published → pass.track_name ∈ j.subscribed)) := by
  have hpassed := Audience.passed_of_run hrun
  obtain ⟨hown, htaken⟩ := hpassed.pulls k
  refine ⟨fun name hname => ?_, fun hroom hsettled hlink => ?_⟩
  · obtain ⟨pass, hpass, rfl⟩ := hown.track i j hj name hname
    obtain ⟨g, hg, rfl, rfl, rfl⟩ := hpassed.passes k i j pass hj hpass
    obtain ⟨j₀, hj₀, hlanguage⟩ := hpassed.asked g hg
    rw [hj] at hj₀
    obtain rfl := Option.some.inj hj₀
    have hnamed := hpassed.named g hg
    refine ⟨g, hg, rfl, rfl, hpass, rfl, ?_⟩
    rw [← hlanguage]
    exact named_iff translator hnamed
  · obtain ⟨j₀, pass, hj₀, hpass, -⟩ := hown.room i hroom
    rw [hj] at hj₀
    obtain rfl := Option.some.inj hj₀
    exact ⟨pass, hpass, htaken i j hroom hj hsettled hlink pass hpass⟩

end

/-! ## A phone in the hall -/

/-- The room of the first phone has come to its end, with both tracks on the air. -/
def onTheAir : List Scene :=
  opening :: asks 0 firstPhone ++ [lets 0 firstPhone,
    .page 0 (.connected 0 ["source-audio", "lang-fr"]), .page 0 (.audioStarted 0)]

theorem onTheAir_evaluated :
    (((audiences venue true atTheHall : Machine (Audience String) Scene).run onTheAir).bind fun s =>
      (s.pages 0).joins[0]?.map fun j => (j.language.code, j.published, (s.pages 0).room, j.progress,
        j.link)) =
      some ("fr", ["source-audio", "lang-fr"], some 0, .settled, .connected) := by
  decide +kernel

theorem the_room_of_a_phone_pulls_french : ∃ (s : Audience String) (j : Joining),
    (audiences venue true atTheHall).run onTheAir = some s ∧ (s.pages 0).joins[0]? = some j ∧
      j.published = ["source-audio", "lang-fr"] ∧
      (∀ name ∈ j.subscribed, ∀ g ∈ s.served, j.pass = some g.pass →
        (name = (pipeline.hall.newTrack "fr").publication.name ↔ g.pass.is_source = false)) ∧
      ∃ pass, j.pass = some pass ∧
        (pass.track_name ∈ j.published → pass.track_name ∈ j.subscribed) := by
  obtain ⟨s, hrun, h⟩ := Option.bind_eq_some_iff.mp onTheAir_evaluated
  obtain ⟨j, hj, h⟩ := Option.map_eq_some_iff.mp h
  simp only [Prod.mk.injEq] at h
  obtain ⟨hcode, hpublished, hroom, hsettled, hlink⟩ := h
  obtain ⟨hone, htakes⟩ :=
    each_room_pulls_the_track_of_its_language pipeline.hall onTheAir s hrun 0 0 j hj
  refine ⟨s, j, hrun, hj, hpublished, fun name hname g hg hpass => ?_,
    htakes hroom hsettled hlink⟩
  obtain ⟨g', -, -, -, hpass', -, -, hiff⟩ := hone name hname
  rw [hpass] at hpass'
  rw [hiff, Option.some.inj hpass', hcode]
  simp

end lad_translate.join_page
