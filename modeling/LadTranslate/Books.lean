-- The books of the latency recorder: every trace that was opened is open or
-- published, the samples of a language are its newest publications, and the
-- breaches are counted. One law for each operation of the recorder.
import LadTranslate.Fallible
import LadTranslate.Latency
import LadTranslate.Stability

open dicts fallible

namespace lad_translate.latency

open phrase_chunker

/-- The first audio of a chunk in one language, handed to the room. -/
structure Publication where
  chunk_id : Nat
  language : String
  t_audio_end : ℚ
  wall : ℚ
deriving DecidableEq

namespace Publication

def key (p : Publication) : Nat × String := (p.chunk_id, p.language)

/-- From the wall time of the end of the chunk to its publication. The clock
is anchored when anything is published. -/
def glassToGlass (clock : AudioClock) (p : Publication) : ℚ :=
  p.wall - (clock.epoch.getD 0 + p.t_audio_end)

end Publication

namespace LatencyRecorder

/-! ## A trace that waits for its publication -/

/-- A trace is open for the chunk and the language, and not published yet. -/
def Waits (r : LatencyRecorder) (chunk_id : Nat) (language : String) (t_audio_end : ℚ) : Prop :=
  ∃ trace epoch, r.open_chunks.lookup (chunk_id, language) = some trace ∧
    r.clock.epoch = some epoch ∧ trace.chunk_id = chunk_id ∧ trace.language = language ∧
    trace.audio_end_wall = epoch + t_audio_end ∧ trace.marks.lookup .published = none

variable {r r' : LatencyRecorder} {chunk_id id : Nat} {language l : String} {t_audio_end e : ℚ}

/-- An open trace, on an anchored clock. -/
theorem openChunk_ok (h : r.openChunk chunk_id language t_audio_end = .ok r') :
    ∃ epoch, r.clock.epoch = some epoch ∧
      r' = { r with
        open_chunks := r.open_chunks.insert (chunk_id, language)
          ⟨chunk_id, language, epoch + t_audio_end, ∅⟩ } := by
  unfold openChunk AudioClock.wallFor at h
  cases hepoch : r.clock.epoch with
  | none =>
    rw [hepoch] at h
    cases h
  | some epoch =>
    rw [hepoch] at h
    cases h
    exact ⟨epoch, rfl, rfl⟩

theorem waits_openChunk (h : r.openChunk chunk_id language t_audio_end = .ok r') :
    r'.Waits chunk_id language t_audio_end := by
  obtain ⟨epoch, hepoch, rfl⟩ := openChunk_ok h
  exact ⟨_, epoch, AList.lookup_insert _, hepoch, rfl, rfl, rfl, rfl⟩

theorem Waits.openChunk (hw : r.Waits id l e) (hne : (id, l) ≠ (chunk_id, language))
    (h : r.openChunk chunk_id language t_audio_end = .ok r') : r'.Waits id l e := by
  obtain ⟨_, -, rfl⟩ := openChunk_ok h
  obtain ⟨trace, epoch, hlookup, hrest⟩ := hw
  exact ⟨trace, epoch, (AList.lookup_insert_ne hne).trans hlookup, hrest⟩

/-- A mark of an open trace that is not its publication. -/
theorem mark_open {trace : ChunkTrace} (h : r.open_chunks.lookup (chunk_id, language) = some trace)
    {stage : Stage} (hstage : stage ≠ .published) (t_wall : ℚ) :
    r.mark chunk_id language stage t_wall =
      { r with open_chunks :=
          r.open_chunks.insert (chunk_id, language) (trace.mark stage t_wall) } := by
  unfold mark
  rw [h]
  simp only [if_neg hstage]

theorem mark_unknown (h : r.open_chunks.lookup (chunk_id, language) = none) (stage : Stage)
    (t_wall : ℚ) : r.mark chunk_id language stage t_wall = r := by
  unfold mark
  rw [h]

/-- The publication of a trace that waits: its time is the newest sample of
its language, and it is open no more. -/
theorem mark_published (hw : r.Waits chunk_id language t_audio_end) (now : ℚ) :
    ∃ open_chunks stages, r.mark chunk_id language .published now =
      { r with
        g2g := r.g2g.insert language (r.append ((r.g2g.lookup language).getD [])
          (Publication.glassToGlass r.clock ⟨chunk_id, language, t_audio_end, now⟩))
        stages
        breaches := if Publication.glassToGlass r.clock ⟨chunk_id, language, t_audio_end, now⟩ >
          r.slo_seconds then r.breaches + 1 else r.breaches
        open_chunks } ∧
      ((chunk_id, language) :: open_chunks.keys).Perm r.open_chunks.keys ∧
      ∀ k, k ≠ (chunk_id, language) → open_chunks.lookup k = r.open_chunks.lookup k := by
  obtain ⟨trace, epoch, hlookup, hepoch, rfl, rfl, hwall, hmarks⟩ := hw
  have hg2g : (trace.mark .published now).glassToGlass =
      some (Publication.glassToGlass r.clock ⟨trace.chunk_id, trace.language, t_audio_end, now⟩) := by
    simp only [ChunkTrace.glassToGlass, ChunkTrace.mark, Publication.glassToGlass, hepoch,
      lookup_setdefault_of_none hmarks, Option.map_some, hwall, Option.getD_some]
  unfold mark
  rw [hlookup]
  simp only [if_true]
  unfold close
  rw [hg2g]
  refine ⟨_, _, rfl, ?_, ?_⟩
  · have hmem : (trace.chunk_id, trace.language) ∈
        r.open_chunks.insert (trace.chunk_id, trace.language) (trace.mark .published now) :=
      mem_of_lookup (AList.lookup_insert _)
    exact (keys_erase_of_mem hmem).trans (keys_insert_of_mem (mem_of_lookup hlookup))
  · intro k hk
    exact (AList.lookup_erase_ne hk).trans (AList.lookup_insert_ne hk)

/-- What a mark that is no publication leaves. -/
theorem mark_frame (r : LatencyRecorder) (chunk_id : Nat) (language : String) {stage : Stage}
    (hstage : stage ≠ .published) (t_wall : ℚ) :
    ∃ open_chunks, r.mark chunk_id language stage t_wall = { r with open_chunks } ∧
      open_chunks.keys.Perm r.open_chunks.keys := by
  cases hlookup : r.open_chunks.lookup (chunk_id, language) with
  | none =>
    rw [mark_unknown hlookup]
    exact ⟨r.open_chunks, rfl, List.Perm.refl _⟩
  | some trace =>
    rw [mark_open hlookup hstage]
    exact ⟨_, rfl, keys_insert_of_mem (mem_of_lookup hlookup)⟩

/-- A mark that is not a publication leaves every trace waiting. -/
theorem Waits.mark (hw : r.Waits id l e) {stage : Stage} (hstage : stage ≠ .published) (t_wall : ℚ) :
    (r.mark chunk_id language stage t_wall).Waits id l e := by
  cases hlookup : r.open_chunks.lookup (chunk_id, language) with
  | none =>
    rw [mark_unknown hlookup]
    exact hw
  | some other =>
    rw [mark_open hlookup hstage]
    obtain ⟨trace, epoch, htrace, hepoch, hid, hl, hwall, hmarks⟩ := hw
    by_cases hk : (id, l) = (chunk_id, language)
    · rw [← hk, htrace, Option.some.injEq] at hlookup
      subst hlookup
      refine ⟨trace.mark stage t_wall, epoch, hk ▸ AList.lookup_insert _, hepoch, hid, hl, hwall, ?_⟩
      exact (lookup_setdefault_ne (Ne.symm hstage)).trans hmarks
    · exact ⟨trace, epoch, (AList.lookup_insert_ne hk).trans htrace, hepoch, hid, hl, hwall, hmarks⟩

/-- A publication leaves every other trace waiting. -/
theorem Waits.publish (hw : r.Waits id l e) (hp : r.Waits chunk_id language t_audio_end)
    (hne : (id, l) ≠ (chunk_id, language)) (now : ℚ) :
    (r.mark chunk_id language .published now).Waits id l e := by
  obtain ⟨open_chunks, stages, heq, -, hothers⟩ := mark_published hp now
  obtain ⟨trace, epoch, htrace, hrest⟩ := hw
  rw [heq]
  exact ⟨trace, epoch, (hothers _ hne).trans htrace, hrest⟩

/-! ## A chunk opened in every language -/

/-- A chunk in each of these languages: its trace is opened, and marked as
committed. -/
def openAll (chunk_id : Nat) (t_audio_end t_wall_committed : ℚ) (languages : List String)
    (r : LatencyRecorder) : Except String LatencyRecorder :=
  languages.foldlM (fun recorder language => do
    let recorder ← recorder.openChunk chunk_id language t_audio_end
    return recorder.mark chunk_id language .committed t_wall_committed) r

theorem mark_clock (r : LatencyRecorder) (chunk_id : Nat) (language : String) (stage : Stage)
    (t_wall : ℚ) : (r.mark chunk_id language stage t_wall).clock = r.clock := by
  unfold mark
  split
  · rfl
  · simp only
    split
    · unfold close
      split <;> rfl
    · rfl

/-- To open a chunk in some languages is to open it in the first one, then in the rest. -/
theorem openAll_cons {t : ℚ} {languages : List String}
    (h : r.openAll chunk_id t_audio_end t (language :: languages) = .ok r') :
    ∃ r₀, r.openChunk chunk_id language t_audio_end = .ok r₀ ∧
      (r₀.mark chunk_id language .committed t).openAll chunk_id t_audio_end t languages = .ok r' := by
  unfold openAll at h
  rw [List.foldlM_cons] at h
  obtain ⟨r₁, hone, hrest⟩ := bind_eq_ok.mp h
  obtain ⟨r₀, hopen, hmark⟩ := bind_eq_ok.mp hone
  cases hmark
  exact ⟨r₀, hopen, hrest⟩

/-- To open a chunk leaves the clock as it was. -/
theorem openAll_clock {t : ℚ} (languages : List String)
    (h : r.openAll chunk_id t_audio_end t languages = .ok r') : r'.clock = r.clock := by
  induction languages generalizing r with
  | nil =>
    cases h
    rfl
  | cons language languages ih =>
    obtain ⟨r₀, hopen, hrest⟩ := openAll_cons h
    obtain ⟨epoch, -, rfl⟩ := openChunk_ok hopen
    exact (ih hrest).trans (mark_clock _ _ _ _ _)

/-- What is opened, and what is left as it was. -/
structure Opened (chunk_id : Nat) (t_audio_end : ℚ) (languages : List String)
    (r r' : LatencyRecorder) : Prop where
  frame : ∃ open_chunks, r' = { r with open_chunks }
  keys : r'.open_chunks.keys.Perm (languages.map (chunk_id, ·) ++ r.open_chunks.keys)
  opened : ∀ l ∈ languages, r'.Waits chunk_id l t_audio_end
  others : ∀ id l e, (id = chunk_id → l ∉ languages) → r.Waits id l e → r'.Waits id l e

/-- The trace of one language. -/
theorem opened_one {t : ℚ} (hfresh : (chunk_id, language) ∉ r.open_chunks)
    (h : r.openChunk chunk_id language t_audio_end = .ok r') :
    (∃ open_chunks, r'.mark chunk_id language .committed t = { r with open_chunks }) ∧
      (r'.mark chunk_id language .committed t).open_chunks.keys.Perm
        ((chunk_id, language) :: r.open_chunks.keys) ∧
      (r'.mark chunk_id language .committed t).Waits chunk_id language t_audio_end ∧
      ∀ id l e, (id, l) ≠ (chunk_id, language) → r.Waits id l e →
        (r'.mark chunk_id language .committed t).Waits id l e := by
  have hcommitted : Stage.committed ≠ .published := by decide
  obtain ⟨open_chunks, hmark, hkeys⟩ := r'.mark_frame chunk_id language hcommitted t
  refine ⟨?_, ?_, (waits_openChunk h).mark hcommitted t,
    fun id l e hne hw => (hw.openChunk hne h).mark hcommitted t⟩
  · obtain ⟨epoch, -, rfl⟩ := openChunk_ok h
    exact ⟨open_chunks, hmark⟩
  · rw [hmark]
    refine hkeys.trans ?_
    obtain ⟨epoch, -, rfl⟩ := openChunk_ok h
    exact List.Perm.of_eq (keys_insert_of_not_mem hfresh)

/-- The chunk is still to be opened in the other languages. -/
theorem unopened_of_opened_one {t : ℚ} {languages : List String} (hother : language ∉ languages)
    (hfresh : ∀ l ∈ language :: languages, (chunk_id, l) ∉ r.open_chunks)
    (h : r.openChunk chunk_id language t_audio_end = .ok r') :
    ∀ l ∈ languages, (chunk_id, l) ∉ (r'.mark chunk_id language .committed t).open_chunks := by
  have hkeys := (opened_one (t := t) (hfresh language List.mem_cons_self) h).2.1
  intro l hl hmem
  rw [AList.mem_keys, hkeys.mem_iff, List.mem_cons] at hmem
  rcases hmem with heq | hmem
  · exact hother ((Prod.mk.inj heq).2 ▸ hl)
  · exact hfresh l (List.mem_cons_of_mem _ hl) (AList.mem_keys.mpr hmem)

theorem openAll_opens {t : ℚ} (languages : List String) (hnodup : languages.Nodup)
    (hfresh : ∀ l ∈ languages, (chunk_id, l) ∉ r.open_chunks)
    (h : r.openAll chunk_id t_audio_end t languages = .ok r') :
    Opened chunk_id t_audio_end languages r r' := by
  induction languages generalizing r with
  | nil =>
    cases h
    exact ⟨⟨_, rfl⟩, List.Perm.refl _, (fun l hl => by cases hl), fun _ _ _ _ hw => hw⟩
  | cons language languages ih =>
    rw [List.nodup_cons] at hnodup
    obtain ⟨r₀, hopen, hrest⟩ := openAll_cons h
    obtain ⟨⟨opens, hframe⟩, hkeys, hwaits, hothers⟩ :=
      opened_one (t := t) (hfresh language List.mem_cons_self) hopen
    have hfresh' := unopened_of_opened_one (t := t) hnodup.1 hfresh hopen
    obtain ⟨⟨opens', hframe'⟩, hkeys', hopened, hothers'⟩ := ih hnodup.2 hfresh' hrest
    refine ⟨⟨opens', ?_⟩, ?_, ?_, ?_⟩
    · rw [hframe', hframe]
    · exact hkeys'.trans ((hkeys.append_left _).trans List.perm_middle)
    · intro l hl
      rcases List.mem_cons.mp hl with rfl | hl
      · exact hothers' _ _ _ (fun _ => hnodup.1) hwaits
      · exact hopened l hl
    · intro id l e hout hw
      refine hothers' id l e (fun hid hl => hout hid (List.mem_cons_of_mem _ hl)) ?_
      refine hothers id l e ?_ hw
      intro heq
      obtain ⟨hid, hl⟩ := Prod.mk.inj heq
      exact hout hid (hl ▸ List.mem_cons_self)

/-! ## The books -/

/-- The newest times of a language, as many as the recorder keeps. -/
def kept (cap : Nat) (clock : AudioClock) (published : List Publication) (language : String) :
    List ℚ :=
  ((published.filter (·.language = language)).map (·.glassToGlass clock)).rtake cap

/-- After so many chunks in these languages, and with these publications. -/
structure Books (languages : List String) (opened : Nat) (published : List Publication)
    (r : LatencyRecorder) : Prop where
  keys : (r.open_chunks.keys ++ published.map Publication.key).Perm (List.range opened ×ˢ languages)
  samples : ∀ l, (r.g2g.lookup l).getD [] = kept r.sample_cap r.clock published l
  breaches : r.breaches =
    (published.filter fun p => decide (p.glassToGlass r.clock > r.slo_seconds)).length
  anchored : published ≠ [] → r.clock.anchored

variable {languages : List String} {opened : Nat} {published : List Publication}

theorem books_fresh (languages : List String) (slo_seconds : ℚ) :
    Books languages 0 [] (fresh slo_seconds) := by
  refine ⟨List.Perm.refl _, fun l => ?_, rfl, fun h => absurd rfl h⟩
  simp [fresh, kept]

theorem Books.mark (h : Books languages opened published r) {stage : Stage}
    (hstage : stage ≠ .published) (t_wall : ℚ) :
    Books languages opened published (r.mark chunk_id language stage t_wall) := by
  obtain ⟨open_chunks, heq, hperm⟩ := r.mark_frame chunk_id language hstage t_wall
  rw [heq]
  exact ⟨(hperm.append_right _).trans h.keys, h.samples, h.breaches, h.anchored⟩

theorem Books.recordRevision (h : Books languages opened published r) :
    Books languages opened published r.recordRevision :=
  ⟨h.keys, h.samples, h.breaches, h.anchored⟩

/-- The first frame anchors the clock, and a later one changes nothing. -/
theorem Books.anchor (h : Books languages opened published r) (hclock : r.clock.anchored = false)
    (clock : AudioClock) : Books languages opened published { r with clock } := by
  have hnone : published = [] := by
    by_contra hne
    rw [h.anchored hne] at hclock
    cases hclock
  subst hnone
  exact ⟨h.keys, h.samples, h.breaches, fun hne => absurd rfl hne⟩

theorem append_kept (r : LatencyRecorder) (xs : List ℚ) (x : ℚ) :
    r.append (xs.rtake r.sample_cap) x = (xs ++ [x]).rtake r.sample_cap := by
  rw [← StabilityTracker.rtake_append_rtake]
  rfl

/-- A publication moves one trace from the open ones to the published ones. -/
theorem Books.publish (h : Books languages opened published r)
    (hw : r.Waits chunk_id language t_audio_end) (now : ℚ) :
    Books languages opened (published ++ [⟨chunk_id, language, t_audio_end, now⟩])
      (r.mark chunk_id language .published now) := by
  obtain ⟨open_chunks, stages, heq, hkeys, -⟩ := mark_published hw now
  rw [heq]
  refine ⟨?_, ?_, ?_, ?_⟩
  · refine List.Perm.trans ?_ ((hkeys.append_right (published.map Publication.key)).trans h.keys)
    rw [List.map_append, ← List.append_assoc]
    exact List.perm_append_singleton _ _
  · intro l
    simp only [kept, List.filter_append]
    by_cases hl : language = l
    · subst hl
      rw [AList.lookup_insert, Option.getD_some, h.samples language, kept, append_kept]
      simp
    · rw [AList.lookup_insert_ne (Ne.symm hl), h.samples l, kept]
      simp [hl]
  · simp only [List.filter_append, List.length_append, h.breaches]
    by_cases hslo : Publication.glassToGlass r.clock ⟨chunk_id, language, t_audio_end, now⟩ >
        r.slo_seconds
    · rw [if_pos hslo, List.filter_cons_of_pos (by simpa using hslo)]
      rfl
    · rw [if_neg hslo, List.filter_cons_of_neg (by simpa using hslo)]
      rfl
  · intro _
    obtain ⟨_, epoch, _, hepoch, -⟩ := hw
    simp only [AudioClock.anchored, hepoch, Option.isSome_some]

/-- The next chunk is opened in every language. -/
theorem Books.openAll (h : Books languages opened published r)
    (hopened : Opened opened t_audio_end languages r r') :
    Books languages (opened + 1) published r' := by
  obtain ⟨⟨open_chunks, rfl⟩, hkeys, -, -⟩ := hopened
  refine ⟨?_, h.samples, h.breaches, h.anchored⟩
  have hrange : List.range (opened + 1) ×ˢ languages =
      List.range opened ×ˢ languages ++ languages.map (opened, ·) := by
    rw [List.range_succ]
    simp [SProd.sprod, List.product]
  rw [hrange]
  refine (hkeys.append_right _).trans ?_
  rw [List.append_assoc]
  exact List.perm_append_comm.trans (h.keys.append_right _)

/-- The next chunk is not open yet. -/
theorem Books.unopened (h : Books languages opened published r) (l : String) :
    (opened, l) ∉ r.open_chunks := by
  intro hmem
  have hkey := h.keys.subset (List.mem_append_left _ (AList.mem_keys.mp hmem))
  have hlt := List.mem_range.mp (List.mem_product.mp hkey).1
  exact absurd hlt (lt_irrefl opened)

end LatencyRecorder

end lad_translate.latency
