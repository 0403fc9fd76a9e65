-- The pump of a session (`_pump` in session/pipeline.py), as the chunker with
-- the place where the coroutine waits. What it waits for, the next hypothesis
-- or a translation, comes from outside.
import LadTranslate.Chunker

open machines

namespace lad_translate.pipeline

open phrase_chunker

/-- Which loop of the pump dispatches. -/
inductive Phase
  | feeding
  | ticking
  | flushing
deriving DecidableEq, Repr

/-- Where the pump waits: for the source, or for the translation of a chunk,
with the chunks that its loop has still to dispatch. -/
inductive PumpPc
  | receiving
  | translating (phase : Phase) (chunk : PhraseChunk) (rest : List PhraseChunk)
  | returned
deriving DecidableEq

structure Pump where
  chunker : PhraseChunker
  pc : PumpPc

namespace Pump

/-- A loop over these chunks: it waits for the first one, or it is over, and
the coroutine goes on at `next`. -/
def dispatching (phase : Phase) (chunker : PhraseChunker) (chunks : List PhraseChunk)
    (next : PumpPc) : Pump :=
  match chunks with
  | [] => ⟨chunker, next⟩
  | chunk :: rest => ⟨chunker, .translating phase chunk rest⟩

/-- The loop over `chunker.tick(now)`, after the loop over `chunker.feed`. -/
def ticked (chunker : PhraseChunker) (now : ℚ) : Option Pump :=
  (chunker.tick now).map fun (chunker, chunks) => dispatching .ticking chunker chunks .receiving

/-- A hypothesis arrived: the loop over `chunker.feed(hypothesis)`. -/
def hear [Unicode] (p : Pump) (hyp : Hypothesis) (now : ℚ) : Option Pump :=
  match p.pc with
  | .receiving =>
    match p.chunker.feed hyp with
    | none => none
    | some (chunker, []) => ticked chunker now
    | some (chunker, chunk :: rest) => some ⟨chunker, .translating .feeding chunk rest⟩
  | _ => none

/-- The source is over: the loop over `chunker.flush()`. -/
def finish (p : Pump) : Option Pump :=
  match p.pc with
  | .receiving => p.chunker.flush.map fun (chunker, chunks) =>
      dispatching .flushing chunker chunks .returned
  | _ => none

/-- A chunk is dispatched: on with its loop, and with what comes after it. -/
def onward (p : Pump) (now : ℚ) : Option Pump :=
  match p.pc with
  | .translating phase _ (chunk :: rest) => some ⟨p.chunker, .translating phase chunk rest⟩
  | .translating .feeding _ [] => ticked p.chunker now
  | .translating .ticking _ [] => some ⟨p.chunker, .receiving⟩
  | .translating .flushing _ [] => some ⟨p.chunker, .returned⟩
  | _ => none

/-- The chunks that the pump committed and did not dispatch yet. -/
def upcoming (p : Pump) : List PhraseChunk :=
  match p.pc with
  | .translating _ chunk rest => chunk :: rest
  | _ => []

/-! ## The numbers of the chunks -/

end Pump

/-- A call numbers its chunks from the chunker's next number on. -/
def Numbers (c : PhraseChunker) (out : List PhraseChunk) (c' : PhraseChunker) : Prop :=
  out.map (·.chunk_id) = List.range' c.next_id out.length ∧ c'.next_id = c.next_id + out.length

theorem numbers_of_commits {hyp : Hypothesis} {now : Option ℚ} {c c' : PhraseChunker}
    {out : List PhraseChunk} (h : PhraseChunker.Commits hyp now c out c') : Numbers c out c' := by
  induction h with
  | nil c => simp [Numbers]
  | @cons c c' stable take reason out hs ht rest ih =>
    obtain ⟨hids, hnext⟩ := ih
    have hstep : (c.commit hyp stable take reason now).1.next_id = c.next_id + 1 := rfl
    have hid : (c.commit hyp stable take reason now).2.chunk_id = c.next_id := rfl
    rw [hstep] at hids hnext
    refine ⟨?_, by rw [hnext, List.length_cons]; omega⟩
    rw [List.map_cons, List.length_cons, List.range'_succ, hid, hids]

theorem feed_numbers [Unicode] {c c' : PhraseChunker} {hyp : Hypothesis} {out : List PhraseChunk}
    (h : c.feed hyp = some (c', out)) : Numbers c out c' := by
  have hnumbers := numbers_of_commits (PhraseChunker.feed_commits h)
  exact hnumbers

theorem tick_numbers {c c' : PhraseChunker} {now : ℚ} {out : List PhraseChunk}
    (h : c.tick now = some (c', out)) : Numbers c out c' := by
  rcases PhraseChunker.tick_commits h with ⟨rfl, rfl⟩ | ⟨hyp, -, hc⟩
  · simp [Numbers]
  · exact numbers_of_commits hc

theorem flush_numbers {c c' : PhraseChunker} {out : List PhraseChunk}
    (h : c.flush = some (c', out)) : Numbers c out c' := by
  rcases PhraseChunker.flush_commits h with ⟨rfl, rfl⟩ | ⟨hyp, -, hc⟩
  · simp [Numbers]
  · exact numbers_of_commits hc

namespace Pump

/-- The chunks that went out, and those to come, are numbered upwards, below
the chunker's next number. -/
structure Numbered (sent : List Nat) (p : Pump) : Prop where
  upwards : (sent ++ p.upcoming.map (·.chunk_id)).Pairwise (· < ·)
  below : ∀ id ∈ sent ++ p.upcoming.map (·.chunk_id), id < p.chunker.next_id

theorem upcoming_dispatching (phase : Phase) (chunker : PhraseChunker) (chunks : List PhraseChunk)
    {next : PumpPc} (hnext : next = .receiving ∨ next = .returned) :
    (dispatching phase chunker chunks next).upcoming = chunks := by
  cases chunks with
  | nil => rcases hnext with rfl | rfl <;> rfl
  | cons chunk rest => rfl

theorem dispatching_chunker (phase : Phase) (chunker : PhraseChunker) (chunks : List PhraseChunk)
    (next : PumpPc) : (dispatching phase chunker chunks next).chunker = chunker := by
  cases chunks <;> rfl

variable {sent : List Nat} {p q : Pump}

/-- A call keeps the numbers of a pump with nothing to come. -/
theorem numbered {c c' : PhraseChunker} {out : List PhraseChunk} (h : Numbers c out c')
    (hup : sent.Pairwise (· < ·)) (hbelow : ∀ id ∈ sent, id < c.next_id) (hq : q.chunker = c')
    (hqs : q.upcoming = out) : Numbered sent q := by
  obtain ⟨hids, hnext⟩ := h
  subst hq
  subst hqs
  refine ⟨?_, ?_⟩
  · rw [hids, List.pairwise_append]
    refine ⟨hup, List.pairwise_lt_range' 1, ?_⟩
    intro a ha b hb
    exact (hbelow a ha).trans_le (List.left_le_of_mem_range' hb)
  · intro id hid
    rw [hnext]
    rw [hids, List.mem_append, List.mem_range'_1] at hid
    rcases hid with hid | hid
    · exact (hbelow id hid).trans_le (Nat.le_add_right _ _)
    · exact hid.2

theorem Numbered.of_sublist {fewer : List Nat} (h : Numbered sent p) (hsub : fewer.Sublist sent) :
    Numbered fewer p := by
  have happ := hsub.append_right (p.upcoming.map (·.chunk_id))
  exact ⟨h.upwards.sublist happ, fun id hid => h.below id (happ.subset hid)⟩

/-- With no chunk to come, the numbers are those of the chunks that went out. -/
theorem Numbered.sent_only (h : Numbered sent p) (hnone : p.upcoming = []) :
    sent.Pairwise (· < ·) ∧ ∀ id ∈ sent, id < p.chunker.next_id := by
  obtain ⟨hup, hbelow⟩ := h
  rw [hnone, List.map_nil, List.append_nil] at hup hbelow
  exact ⟨hup, hbelow⟩

/-- The loop over a tick, when every chunk of the feed is dispatched. -/
theorem numbered_ticked {c : PhraseChunker} {now : ℚ} (hup : sent.Pairwise (· < ·))
    (hbelow : ∀ id ∈ sent, id < c.next_id) (hq : ticked c now = some q) : Numbered sent q := by
  obtain ⟨⟨c', out⟩, htick, rfl⟩ := Option.map_eq_some_iff.mp hq
  exact numbered (tick_numbers htick) hup hbelow (dispatching_chunker .ticking c' out .receiving)
    (upcoming_dispatching .ticking c' out (.inl rfl))

theorem Numbered.hear [Unicode] {hyp : Hypothesis} {now : ℚ} (h : Numbered sent p)
    (hq : p.hear hyp now = some q) : Numbered sent q := by
  unfold Pump.hear at hq
  split at hq
  case h_2 => cases hq
  case h_1 hpc =>
    obtain ⟨hup, hbelow⟩ := h.sent_only (by simp [upcoming, hpc])
    split at hq
    · cases hq
    · rename_i c' hfeed
      have hq' := numbered (feed_numbers hfeed) (q := ⟨c', .receiving⟩) hup hbelow rfl rfl
      obtain ⟨hup', hbelow'⟩ := hq'.sent_only rfl
      exact numbered_ticked hup' hbelow' hq
    · rename_i c' chunk rest hfeed
      cases hq
      exact numbered (feed_numbers hfeed) hup hbelow rfl rfl

theorem Numbered.finish (h : Numbered sent p) (hq : p.finish = some q) : Numbered sent q := by
  unfold Pump.finish at hq
  split at hq
  case h_2 => cases hq
  case h_1 hpc =>
    obtain ⟨hup, hbelow⟩ := h.sent_only (by simp [upcoming, hpc])
    obtain ⟨⟨c', out⟩, hflush, rfl⟩ := Option.map_eq_some_iff.mp hq
    exact numbered (flush_numbers hflush) hup hbelow
      (dispatching_chunker .flushing c' out .returned)
      (upcoming_dispatching .flushing c' out (.inr rfl))

/-- The chunk that is dispatched joins the chunks that went out. -/
theorem Numbered.onward {now : ℚ} {phase : Phase} {chunk : PhraseChunk} {rest : List PhraseChunk}
    (h : Numbered sent p) (hpc : p.pc = .translating phase chunk rest)
    (hq : p.onward now = some q) : Numbered (sent ++ [chunk.chunk_id]) q := by
  have hup := h.upwards
  have hbelow := h.below
  simp only [upcoming, hpc, List.map_cons] at hup hbelow
  rw [List.append_cons] at hup hbelow
  unfold Pump.onward at hq
  rw [hpc] at hq
  cases rest with
  | cons next rest =>
    cases hq
    exact ⟨hup, hbelow⟩
  | nil =>
    simp only [List.map_nil, List.append_nil] at hup hbelow
    cases phase with
    | feeding => exact numbered_ticked hup hbelow hq
    | ticking =>
      cases hq
      exact ⟨by simpa [upcoming] using hup, by simpa [upcoming] using hbelow⟩
    | flushing =>
      cases hq
      exact ⟨by simpa [upcoming] using hup, by simpa [upcoming] using hbelow⟩

end Pump

end lad_translate.pipeline
