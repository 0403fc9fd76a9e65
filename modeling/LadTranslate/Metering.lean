-- The recorder of a session, over whole runs: every chunk that was dispatched
-- is open or published in every language, and each phrase on its way to the
-- room has a trace that waits for it.
import LadTranslate.Dispatch
import LadTranslate.Steps

namespace lad_translate.pipeline

open phrase_chunker config latency drift sessions LatencyRecorder

/-! ## The phrases on their way -/

/-- What a worker has still to publish: the phrase in its hand before the
first block, and its queue. -/
def Worker.pending (w : Worker) : List Phrase :=
  (match w.pc.inHand with
    | some (phrase, true) => [phrase]
    | _ => []) ++ w.queue.reduceOption

/-- The trace of a phrase waits for its publication. -/
def Phrase.Waits (phrase : Phrase) (r : LatencyRecorder) (l : String) : Prop :=
  LatencyRecorder.Waits r phrase.1.chunk_id l phrase.1.t_audio_end

/-- Every publication and every row of a language belongs to a phrase that the
worker is done with, and every phrase that it is not done with waits. -/
structure Tracked (s : Session) (ps : List Publication) (l : String) (w : Worker) : Prop where
  split : ∃ done, s.dispatched l = done ++ w.pending ∧
    (∀ p ∈ ps, p.language = l → p.chunk_id ∈ done.map (·.1.chunk_id)) ∧
    ∀ r ∈ s.rows, r.language = l → ∃ phrase ∈ done, r.chunk_id = phrase.1.chunk_id
  waits : ∀ phrase ∈ w.pending, Phrase.Waits phrase s.recorder l
  hand : ∀ phrase, w.pc.inHand = some (phrase, false) →
    ∃ now, (ps.filter (·.language = l)).getLast? = some (phrase.publication l now)

/-- The books are kept, and the phrases of every language are tracked. -/
structure Kept (setup : Setup) (n : Nat) (ps : List Publication) (s : Session) : Prop where
  books : Books setup.config.targetCodes n ps s.recorder
  slo : s.recorder.slo_seconds = setup.config.slo_seconds
  cap : s.recorder.sample_cap = 20000
  tracked : ∀ l w, s.workers l = some w → Tracked s ps l w
  nobody : ∀ l, s.workers l = none → (∀ p ∈ ps, p.language ≠ l) ∧ ∀ r ∈ s.rows, r.language ≠ l

section

variable {setup : Setup} {s t : Session} {n : Nat} {ps : List Publication} {l language : String}
  {w w' : Worker}

/-- A recorder in which everything that waited still waits. -/
theorem Tracked.recorder (h : Tracked s ps l w) {r : LatencyRecorder}
    (hwaits : ∀ id e, s.recorder.Waits id l e → r.Waits id l e) :
    Tracked { s with recorder := r } ps l w :=
  ⟨h.split, fun phrase hmem => hwaits _ _ (h.waits phrase hmem), h.hand⟩

theorem Kept.recorder (h : Kept setup n ps s) {m : Nat} {r : LatencyRecorder}
    (hbooks : Books setup.config.targetCodes m ps r)
    (hlimits : r.slo_seconds = s.recorder.slo_seconds ∧ r.sample_cap = s.recorder.sample_cap)
    (hwaits : ∀ l w phrase, s.workers l = some w → phrase ∈ w.pending →
      Phrase.Waits phrase s.recorder l → Phrase.Waits phrase r l) :
    Kept setup m ps { s with recorder := r } := by
  refine ⟨hbooks, hlimits.1.trans h.slo, hlimits.2.trans h.cap, ?_, h.nobody⟩
  intro l w hw
  obtain ⟨hsplit, hall, hhand⟩ := h.tracked l w hw
  exact ⟨hsplit, fun phrase hmem => hwaits l w phrase hw hmem (hall phrase hmem), hhand⟩

theorem mark_limits (r : LatencyRecorder) (chunk_id : Nat) (language : String) {stage : latency.Stage}
    (hstage : stage ≠ .published) (t_wall : ℚ) :
    (r.mark chunk_id language stage t_wall).slo_seconds = r.slo_seconds ∧
      (r.mark chunk_id language stage t_wall).sample_cap = r.sample_cap := by
  obtain ⟨open_chunks, heq, -⟩ := r.mark_frame chunk_id language hstage t_wall
  rw [heq]
  exact ⟨rfl, rfl⟩

/-- A mark that is no publication. -/
theorem Kept.mark (h : Kept setup n ps s) (chunk_id : Nat) (language : String) {stage : latency.Stage}
    (hstage : stage ≠ .published) (t_wall : ℚ) :
    Kept setup n ps { s with recorder := s.recorder.mark chunk_id language stage t_wall } :=
  h.recorder (h.books.mark hstage t_wall) (mark_limits _ _ _ hstage t_wall)
    fun _ _ _ _ _ hw => Waits.mark hw hstage t_wall

theorem pending_put_some (w : Worker) (phrase : Phrase) :
    (w.put (some phrase)).pending = w.pending ++ [phrase] := by
  simp [Worker.pending, Worker.put, List.reduceOption_append, List.reduceOption_cons_of_some]

theorem pending_put_none (w : Worker) : (w.put none).pending = w.pending := by
  simp [Worker.pending, Worker.put, List.reduceOption_append, List.reduceOption_cons_of_none]

/-! ## The steps of the pump -/

theorem submit_languages {phrase : Phrase}
    (hlanguages : ∀ l w, s.workers l = some w → l ∈ setup.config.targetCodes)
    (hw : s.workers language = some w) :
    ∀ l w', (s.submit language w phrase).workers l = some w' → l ∈ setup.config.targetCodes := by
  intro l w' hw'
  by_cases hl : l = language
  · exact hl ▸ hlanguages language w hw
  · exact hlanguages l w' (by
      simpa [Session.submit, Session.setWorker, Function.update_of_ne hl] using hw')

/-- A phrase goes to the worker of its language. -/
theorem Kept.submit (h : Kept setup n ps s) (hw : s.workers language = some w) (phrase : Phrase)
    (hwaits : Phrase.Waits phrase s.recorder language) :
    Kept setup n ps (s.submit language w phrase) := by
  refine ⟨h.books, h.slo, h.cap, ?_, ?_⟩
  · intro l v hv
    by_cases hl : l = language
    · subst hl
      simp only [Session.submit, Session.setWorker, Function.update_self, Option.some.injEq] at hv
      subst hv
      obtain ⟨⟨done, hdone, hps, hrows⟩, hall, hhand⟩ := h.tracked l w hw
      refine ⟨⟨done, ?_, hps, hrows⟩, ?_, hhand⟩
      · rw [pending_put_some, ← List.append_assoc, ← hdone]
        simp [Session.submit]
      · intro x hx
        rw [pending_put_some] at hx
        rcases List.mem_append.mp hx with hx | hx
        · exact hall x hx
        · exact List.mem_singleton.mp hx ▸ hwaits
    · simp only [Session.submit, Session.setWorker, Function.update_of_ne hl] at hv
      obtain ⟨⟨done, hdone, hps, hrows⟩, hall, hhand⟩ := h.tracked l v hv
      refine ⟨⟨done, ?_, hps, hrows⟩, hall, hhand⟩
      simpa [Session.submit, Function.update_of_ne hl] using hdone
  · intro l hl
    apply h.nobody l
    by_cases heq : l = language
    · subst heq
      simp [Session.submit, Session.setWorker] at hl
    · simpa [Session.submit, Session.setWorker, Function.update_of_ne heq] using hl

/-- The translations of a chunk that is open in every language. -/
theorem Kept.submitAll {chunk : PhraseChunk} (now : ℚ) (items : List (String × String))
    (h : Kept setup n ps s)
    (hlanguages : ∀ l w, s.workers l = some w → l ∈ setup.config.targetCodes)
    (hwaits : ∀ l ∈ setup.config.targetCodes, s.recorder.Waits chunk.chunk_id l chunk.t_audio_end) :
    Kept setup n ps (s.submitAll chunk now items).1 ∧
      (s.submitAll chunk now items).1.chunks = s.chunks ∧
      (s.submitAll chunk now items).1.pump = s.pump := by
  induction items generalizing s with
  | nil => exact ⟨h, rfl, rfl⟩
  | cons item items ih =>
    obtain ⟨language, text⟩ := item
    have hstage : latency.Stage.translated ≠ .published := by decide
    unfold Session.submitAll
    simp only
    have hmarked := h.mark chunk.chunk_id language hstage now
    have hwaits' : ∀ l ∈ setup.config.targetCodes,
        (s.recorder.mark chunk.chunk_id language .translated now).Waits chunk.chunk_id l
          chunk.t_audio_end := fun l hl => (hwaits l hl).mark hstage now
    split
    · exact ⟨hmarked, rfl, rfl⟩
    · rename_i w hw
      have hsubmitted := hmarked.submit hw (chunk, text) (hwaits' language (hlanguages language w hw))
      exact ih hsubmitted (submit_languages hlanguages hw) hwaits'

/-! ## The chunks in order -/

/-- The chunks that the pump has still to dispatch are numbered from k on. -/
def Pump.Next (p : Pump) (k : Nat) : Prop :=
  p.upcoming.map (·.chunk_id) = List.range' k p.upcoming.length ∧
    p.chunker.next_id = k + p.upcoming.length

/-- With no chunk to come, the next number is that of the chunker. -/
theorem Pump.Next.counted {p : Pump} {k : Nat} (h : p.Next k) (hnone : p.upcoming = []) :
    p.chunker.next_id = k := by
  have hcount := h.2
  rwa [hnone] at hcount

theorem next_dispatching (phase : Phase) {c c' : PhraseChunker} {out : List PhraseChunk}
    (h : Numbers c out c') {next : PumpPc} (hnext : next = .receiving ∨ next = .returned) :
    (Pump.dispatching phase c' out next).Next c.next_id := by
  unfold Pump.Next
  rw [Pump.upcoming_dispatching phase c' out hnext, Pump.dispatching_chunker]
  exact h

theorem next_ticked {c : PhraseChunker} {now : ℚ} {q : Pump} (h : Pump.ticked c now = some q) :
    q.Next c.next_id := by
  obtain ⟨⟨c', out⟩, htick, rfl⟩ := Option.map_eq_some_iff.mp h
  exact next_dispatching .ticking (tick_numbers htick) (.inl rfl)

theorem next_hear [Unicode] {p q : Pump} {hyp : Hypothesis} {now : ℚ} {k : Nat} (h : p.Next k)
    (hq : p.hear hyp now = some q) : q.Next k := by
  unfold Pump.hear at hq
  split at hq
  case h_2 => cases hq
  case h_1 hpc =>
    have hk := h.counted (by simp [Pump.upcoming, hpc])
    split at hq
    · cases hq
    · rename_i c' hfeed
      have hnone := (feed_numbers hfeed).2
      have hnext := next_ticked hq
      rwa [hnone, hk] at hnext
    · rename_i c' chunk rest hfeed
      cases hq
      have hnumbers := feed_numbers hfeed
      unfold Numbers at hnumbers
      rw [hk] at hnumbers
      exact hnumbers

theorem next_finish {p q : Pump} {k : Nat} (h : p.Next k) (hq : p.finish = some q) : q.Next k := by
  unfold Pump.finish at hq
  split at hq
  case h_2 => cases hq
  case h_1 hpc =>
    have hk := h.counted (by simp [Pump.upcoming, hpc])
    obtain ⟨⟨c', out⟩, hflush, rfl⟩ := Option.map_eq_some_iff.mp hq
    exact hk ▸ next_dispatching .flushing (flush_numbers hflush) (.inr rfl)

theorem next_onward {p q : Pump} {phase : Phase} {chunk : PhraseChunk} {rest : List PhraseChunk}
    {later : ℚ} {k : Nat} (h : p.Next k) (hpc : p.pc = .translating phase chunk rest)
    (hq : p.onward later = some q) : q.Next (k + 1) := by
  obtain ⟨hids, hcount⟩ := h
  simp only [Pump.upcoming, hpc, List.map_cons, List.length_cons, List.range'_succ,
    List.cons.injEq] at hids hcount
  unfold Pump.onward at hq
  rw [hpc] at hq
  cases rest with
  | cons next rest =>
    cases hq
    exact ⟨hids.2, by rw [hcount]; simp only [Pump.upcoming, List.length_cons]; omega⟩
  | nil =>
    simp only [List.length_nil] at hcount
    cases phase with
    | feeding => exact hcount ▸ next_ticked hq
    | ticking =>
      cases hq
      exact ⟨rfl, hcount⟩
    | flushing =>
      cases hq
      exact ⟨rfl, hcount⟩

/-- How many chunks were opened, by where the pump is. A pump that waits for a
translation has opened that chunk in every language. -/
def Begun (setup : Setup) (s : Session) (n : Nat) : Prop :=
  match s.pump with
  | .absent => s.chunks = n ∧ n = 0
  | .active p => s.chunks = n ∧ (∃ k, p.Next k ∧ n = k + min 1 p.upcoming.length) ∧
      ∀ phase chunk rest, p.pc = .translating phase chunk rest →
        ∀ l ∈ setup.config.targetCodes, s.recorder.Waits chunk.chunk_id l chunk.t_audio_end
  | .ended none => s.chunks = n
  | .ended (some _) => True

/-- The recorder of a session, with what was published. -/
def Metered (setup : Setup) (s : Session) (ps : List Publication) : Prop :=
  ∃ n, Kept setup n ps s ∧ Begun setup s n

theorem beginDispatch_eq (setup : Setup) (s : Session) (chunk : PhraseChunk) :
    s.beginDispatch setup chunk =
      match s.recorder.openAll chunk.chunk_id chunk.t_audio_end chunk.t_wall_committed
        setup.config.targetCodes with
      | .error text => ({ s with chunks := s.chunks + 1 }, some (.exception text false))
      | .ok recorder => ({ s with
          chunks := s.chunks + 1
          recorder := if chunk.revised_after_commit then recorder.recordRevision else recorder },
          none) := by
  unfold Session.beginDispatch
  rfl

/-- The next chunk is opened in every language. -/
theorem Kept.opened (h : Kept setup n ps s) {t_audio_end : ℚ} {r : LatencyRecorder}
    (hopened : Opened n t_audio_end setup.config.targetCodes s.recorder r) (revised : Bool) :
    Kept setup (n + 1) ps { s with recorder := if revised then r.recordRevision else r } := by
  have hbooks := h.books.openAll hopened
  obtain ⟨open_chunks, hframe⟩ := hopened.frame
  have hwaits : ∀ id l e, s.recorder.Waits id l e → r.Waits id l e := by
    intro id l e hw
    apply hopened.others id l e _ hw
    intro hid hl
    obtain ⟨trace, epoch, hlookup, -⟩ := hw
    exact h.books.unopened l (hid ▸ dicts.mem_of_lookup hlookup)
  cases revised with
  | false => exact h.recorder hbooks (by rw [hframe]; exact ⟨rfl, rfl⟩) fun _ _ _ _ _ hw => hwaits _ _ _ hw
  | true =>
    exact h.recorder hbooks.recordRevision (by rw [hframe]; exact ⟨rfl, rfl⟩)
      fun _ _ _ _ _ hw => hwaits _ _ _ hw

/-- The pump goes on to its next await, and opens the chunk that it waits for. -/
theorem Kept.pumpTo {q : Pump} (h : Kept setup n ps s) (hchunks : s.chunks = n) (hq : q.Next n) :
    Metered setup (s.pumpTo setup q) ps := by
  unfold Session.pumpTo
  split
  · rename_i hpc
    refine ⟨n, ⟨h.books, h.slo, h.cap, fun l w hw => ?_, h.nobody⟩, hchunks, ⟨n, hq, ?_⟩, ?_⟩
    · obtain ⟨hsplit, hall, hhand⟩ := h.tracked l w hw
      exact ⟨hsplit, hall, hhand⟩
    · simp [Pump.upcoming, hpc]
    · intro phase chunk rest hpc'
      rw [hpc] at hpc'
      cases hpc'
  · refine ⟨n, ⟨h.books, h.slo, h.cap, fun l w hw => ?_, h.nobody⟩, hchunks⟩
    obtain ⟨hsplit, hall, hhand⟩ := h.tracked l w hw
    exact ⟨hsplit, hall, hhand⟩
  · rename_i phase chunk rest hpc
    have hid : chunk.chunk_id = n := by
      have hids := hq.1
      rw [Pump.upcoming, hpc, List.map_cons, List.length_cons, List.range'_succ,
        List.cons.injEq] at hids
      exact hids.1
    rw [beginDispatch_eq]
    cases hopen : s.recorder.openAll chunk.chunk_id chunk.t_audio_end chunk.t_wall_committed
        setup.config.targetCodes with
    | error text =>
      refine ⟨n, ⟨h.books, h.slo, h.cap, fun l w hw => ?_, h.nobody⟩, trivial⟩
      obtain ⟨hsplit, hall, hhand⟩ := h.tracked l w hw
      exact ⟨hsplit, hall, hhand⟩
    | ok r =>
      have hopened := openAll_opens setup.config.targetCodes setup.config.targetCodes_nodup
        (fun l _ => hid ▸ h.books.unopened l) hopen
      have hkept := h.opened (hid ▸ hopened) chunk.revised_after_commit
      refine ⟨n + 1, ⟨hkept.books, hkept.slo, hkept.cap, fun l w hw => ?_, hkept.nobody⟩, ?_, ?_, ?_⟩
      · obtain ⟨hsplit, hall, hhand⟩ := hkept.tracked l w hw
        exact ⟨hsplit, hall, hhand⟩
      · simp only [hchunks]
      · refine ⟨n, hq, ?_⟩
        simp [Pump.upcoming, hpc]
      · intro phase' chunk' rest' hpc' l hl
        rw [hpc] at hpc'
        cases hpc'
        have hw := hopened.opened l hl
        simp only
        split <;> exact hw

/-! ## The steps of a worker -/

/-- A worker that got rid of some phrases, and published nothing. -/
theorem Tracked.drops (h : Tracked s ps l w) (hpending : ∃ pre, w.pending = pre ++ w'.pending)
    (hhand : ∀ phrase, w'.pc.inHand = some (phrase, false) → w.pc.inHand = some (phrase, false)) :
    Tracked s ps l w' := by
  obtain ⟨⟨done, hdone, hps, hrows⟩, hall, hspoken⟩ := h
  obtain ⟨pre, hpre⟩ := hpending
  refine ⟨⟨done ++ pre, ?_, ?_, ?_⟩, ?_, fun phrase hp => hspoken phrase (hhand phrase hp)⟩
  · rw [hdone, hpre, List.append_assoc]
  · intro p hp hl
    rw [List.map_append]
    exact List.mem_append_left _ (hps p hp hl)
  · intro r hr hl
    obtain ⟨phrase, hmem, hid⟩ := hrows r hr hl
    exact ⟨phrase, List.mem_append_left _ hmem, hid⟩
  · intro phrase hmem
    exact hall phrase (hpre ▸ List.mem_append_right _ hmem)

/-- A worker that hands a row to the store has its phrase behind it. -/
theorem Tracked.writes (h : Tracked s ps l w) {phrase : Phrase} {latency : Option ℚ}
    (hphrase : w.pending = phrase :: w'.pending ∨
      w.pending = w'.pending ∧ w.pc.inHand = some (phrase, false))
    (hhand : w'.pc.inHand = none) :
    Tracked { s with rows := s.rows ++ [rowOf l phrase latency] } ps l w' := by
  have hbehind : ∃ done, s.dispatched l = done ++ w'.pending ∧
      (∀ p ∈ ps, p.language = l → p.chunk_id ∈ done.map (·.1.chunk_id)) ∧
      (∀ r ∈ s.rows, r.language = l → ∃ x ∈ done, r.chunk_id = x.1.chunk_id) ∧
      phrase.1.chunk_id ∈ done.map (·.1.chunk_id) := by
    obtain ⟨⟨done, hdone, hps, hrows⟩, hall, hspoken⟩ := h
    rcases hphrase with hpending | ⟨hpending, hspeaking⟩
    · refine ⟨done ++ [phrase], by rw [hdone, hpending, List.append_assoc]; rfl, ?_, ?_, by simp⟩
      · intro p hp hl
        rw [List.map_append]
        exact List.mem_append_left _ (hps p hp hl)
      · intro r hr hl
        obtain ⟨x, hmem, hid⟩ := hrows r hr hl
        exact ⟨x, List.mem_append_left _ hmem, hid⟩
    · obtain ⟨now, hlast⟩ := hspoken phrase hspeaking
      have hmem := List.mem_filter.mp (List.mem_of_getLast? hlast)
      exact ⟨done, hpending ▸ hdone, hps, hrows, hps _ hmem.1 (by simpa using hmem.2)⟩
  obtain ⟨done, hdone, hps, hrows, hid⟩ := hbehind
  refine ⟨⟨done, hdone, hps, ?_⟩, ?_, by simp [hhand]⟩
  · intro r hr hl
    rcases List.mem_append.mp hr with hr | hr
    · exact hrows r hr hl
    · obtain ⟨x, hx, hxid⟩ := List.mem_map.mp hid
      rw [List.mem_singleton.mp hr]
      exact ⟨x, hx, by rw [hxid]; rfl⟩
  · intro x hx
    apply h.waits x
    rcases hphrase with hpending | ⟨hpending, -⟩
    · exact hpending ▸ List.mem_cons_of_mem _ hx
    · exact hpending ▸ hx

/-- The phrases of the other languages, when one worker moved. -/
theorem Kept.worker (h : Kept setup n ps s) (hw : s.workers language = some w)
    (qs : List Publication) {recorder : LatencyRecorder} {drift : DriftController}
    {rows : List TranscriptRow}
    (hbooks : Books setup.config.targetCodes n (ps ++ qs) recorder)
    (hlimits : recorder.slo_seconds = s.recorder.slo_seconds ∧
      recorder.sample_cap = s.recorder.sample_cap)
    (hqs : ∀ p ∈ qs, p.language = language)
    (hrows : ∃ new, rows = s.rows ++ new ∧ ∀ r ∈ new, r.language = language)
    (hwaits : ∀ id l e, l ≠ language → s.recorder.Waits id l e → recorder.Waits id l e)
    (htracked : Tracked { s with recorder, rows } (ps ++ qs) language w') :
    Kept setup n (ps ++ qs)
      { s with workers := Function.update s.workers language (some w'), recorder, drift, rows } := by
  obtain ⟨new, rfl, hnew⟩ := hrows
  refine ⟨hbooks, hlimits.1.trans h.slo, hlimits.2.trans h.cap, ?_, ?_⟩
  · intro l v hv
    by_cases hl : l = language
    · subst hl
      simp only [Function.update_self, Option.some.injEq] at hv
      subst hv
      obtain ⟨h1, h2, h3⟩ := htracked
      exact ⟨h1, h2, h3⟩
    · simp only [Function.update_of_ne hl] at hv
      obtain ⟨⟨done, hdone, hps, hdonerows⟩, hall, hhand⟩ := h.tracked l v hv
      have hnone : qs.filter (·.language = l) = [] := by
        rw [List.filter_eq_nil_iff]
        intro p hp
        simp [hqs p hp, Ne.symm hl]
      refine ⟨⟨done, hdone, ?_, ?_⟩, fun x hx => hwaits _ _ _ hl (hall x hx), ?_⟩
      · intro p hp hpl
        rcases List.mem_append.mp hp with hp | hp
        · exact hps p hp hpl
        · exact absurd (hpl.symm.trans (hqs p hp)) hl
      · intro r hr hrl
        rcases List.mem_append.mp hr with hr | hr
        · exact hdonerows r hr hrl
        · exact absurd (hrl.symm.trans (hnew r hr)) hl
      · intro phrase hp
        rw [List.filter_append, hnone, List.append_nil]
        exact hhand phrase hp
  · intro l hl
    have hne : l ≠ language := by
      rintro rfl
      simp at hl
    simp only [Function.update_of_ne hne] at hl
    refine ⟨?_, ?_⟩
    · intro p hp
      rcases List.mem_append.mp hp with hp | hp
      · exact (h.nobody l hl).1 p hp
      · exact fun heq => hne (heq.symm.trans (hqs p hp))
    · intro r hr
      rcases List.mem_append.mp hr with hr | hr
      · exact (h.nobody l hl).2 r hr
      · exact fun heq => hne (heq.symm.trans (hnew r hr))

/-- The chunk that the pump waits for is still open. -/
theorem Begun.worker (h : Begun setup s n) {workers : String → Option Worker}
    {recorder : LatencyRecorder} {drift : DriftController} {rows : List TranscriptRow}
    (hwaits : ∀ p, s.pump = .active p → ∀ chunk ∈ p.upcoming, ∀ l,
      s.recorder.Waits chunk.chunk_id l chunk.t_audio_end →
        recorder.Waits chunk.chunk_id l chunk.t_audio_end) :
    Begun setup { s with workers, recorder, drift, rows } n := by
  unfold Begun at h ⊢
  simp only
  cases hpump : s.pump with
  | absent =>
    rw [hpump] at h
    exact h
  | active p =>
    rw [hpump] at h
    obtain ⟨hchunks, hnext, hopen⟩ := h
    refine ⟨hchunks, hnext, fun phase chunk rest hpc l hl => ?_⟩
    exact hwaits p hpump chunk (by simp [Pump.upcoming, hpc]) l (hopen phase chunk rest hpc l hl)
  | ended raised =>
    rw [hpump] at h
    cases raised <;> exact h

theorem pending_of_hand {phrase : Phrase} (hhand : w.pc.inHand = some (phrase, true)) :
    w.pending = phrase :: w.queue.reduceOption := by
  simp [Worker.pending, hhand]

theorem pending_of_no_hand (hhand : ∀ phrase, w.pc.inHand ≠ some (phrase, true)) :
    w.pending = w.queue.reduceOption := by
  unfold Worker.pending
  split
  · rename_i phrase hp
    exact absurd hp (hhand phrase)
  · rfl

/-- The first block of a phrase: its trace is published, and no other one. -/
theorem metered_publication (ha : Accounted s) (hkept : Kept setup n ps s) (hbegun : Begun setup s n)
    (hw : s.workers language = some w) {phrase : Phrase} {speech : SpeechChunk} {now : ℚ}
    {pushed : List (Nat × SpeechChunk)} {drift : DriftController}
    (hpc : w.pc = .pushing phrase true speech) :
    Metered setup
      { s with
        workers := Function.update s.workers language
          (some { w with pc := .synthesising phrase false, pushed })
        recorder := s.recorder.mark phrase.1.chunk_id language .published now
        drift, rows := s.rows }
      (ps ++ [phrase.publication language now]) := by
  obtain ⟨⟨done, hdone, hps, hrows⟩, hall, hspoken⟩ := hkept.tracked language w hw
  have hpending : w.pending = phrase :: w.queue.reduceOption := pending_of_hand (by rw [hpc]; rfl)
  have hwait : Phrase.Waits phrase s.recorder language := hall phrase (hpending ▸ List.mem_cons_self)
  have hothers : ∀ id l e, (id, l) ≠ (phrase.1.chunk_id, language) → s.recorder.Waits id l e →
      (s.recorder.mark phrase.1.chunk_id language .published now).Waits id l e :=
    fun id l e hne hw => hw.publish hwait hne now
  have hlimits : (s.recorder.mark phrase.1.chunk_id language .published now).slo_seconds =
        s.recorder.slo_seconds ∧
      (s.recorder.mark phrase.1.chunk_id language .published now).sample_cap =
        s.recorder.sample_cap := by
    obtain ⟨open_chunks, stages, heq, -⟩ := mark_published hwait now
    rw [heq]
    exact ⟨rfl, rfl⟩
  have hup := ha.upwards language
  unfold Session.ids at hup
  rw [hdone, hpending, List.map_append, List.map_cons, List.pairwise_append, List.pairwise_cons] at hup
  refine ⟨n, hkept.worker hw [_] (hkept.books.publish hwait now) hlimits (by simp [Phrase.publication])
    ⟨[], (List.append_nil _).symm, by simp⟩ ?_ ?_, hbegun.worker ?_⟩
  · exact fun id l e hl => hothers id l e fun heq => hl (Prod.mk.inj heq).2
  · refine ⟨⟨done ++ [phrase], ?_, ?_, ?_⟩, ?_, ?_⟩
    · rw [hdone, hpending, List.append_assoc]
      rfl
    · intro p hp hl
      rw [List.map_append]
      rcases List.mem_append.mp hp with hp | hp
      · exact List.mem_append_left _ (hps p hp hl)
      · rw [List.mem_singleton.mp hp]
        exact List.mem_append_right _ (List.mem_singleton_self _)
    · intro r hr hl
      obtain ⟨x, hmem, hid⟩ := hrows r hr hl
      exact ⟨x, List.mem_append_left _ hmem, hid⟩
    · -- the phrases behind it in the queue have greater numbers
      intro x hx
      refine hothers _ _ _ ?_ (hall x (hpending ▸ List.mem_cons_of_mem _ hx))
      intro heq
      have hlt := hup.2.1.1 _ (List.mem_map_of_mem (f := fun x : Phrase => x.1.chunk_id) hx)
      rw [(Prod.mk.inj heq).1] at hlt
      exact lt_irrefl _ hlt
    · intro x hx
      simp only [WorkerPc.inHand, Option.some.injEq, Prod.mk.injEq, and_true] at hx
      subst hx
      refine ⟨now, ?_⟩
      rw [List.filter_append, List.filter_cons_of_pos (by simp [Phrase.publication])]
      simp
  · -- the chunk that the pump waits for was not dispatched yet
    intro p hp chunk hchunk l
    apply hothers
    intro heq
    obtain ⟨hid, rfl⟩ := Prod.mk.inj heq
    have hcoming := (ha.coming p hp l).upwards
    have hlt := (List.pairwise_append.mp hcoming).2.2 phrase.1.chunk_id
      (by simp [Session.ids, hdone, hpending]) chunk.chunk_id
      (List.mem_map_of_mem (f := fun x : PhraseChunk => x.chunk_id) hchunk)
    rw [hid] at hlt
    exact lt_irrefl _ hlt

/-- Every step of a worker keeps the recorder metered. -/
theorem metered_worker (ha : Accounted s) (h : Metered setup s ps)
    (hw : s.workers language = some w) {event : WorkerEvent} {recorder : LatencyRecorder}
    {drift : DriftController} {rows : List TranscriptRow}
    (hworks : Works setup s language w event w' recorder rows) :
    Metered setup
      { s with workers := Function.update s.workers language (some w'), recorder, drift, rows }
      (ps ++ published s (.worker language event) t) := by
  obtain ⟨n, hkept, hbegun⟩ := h
  have htracked := hkept.tracked language w hw
  have hsame : ps ++ [] = ps := List.append_nil ps
  -- a step that leaves the recorder as it was, and publishes nothing
  have hquiet : ∀ {w' : Worker} {rows : List TranscriptRow},
      published s (.worker language event) t = [] →
      (∃ new, rows = s.rows ++ new ∧ ∀ r ∈ new, r.language = language) →
      Tracked { s with rows } ps language w' →
      Metered setup
        { s with workers := Function.update s.workers language (some w'), drift, rows }
        (ps ++ published s (.worker language event) t) := by
    intro w' rows hnone hrows hw'
    rw [hnone]
    exact ⟨n, hkept.worker hw [] (hsame.symm ▸ hkept.books) ⟨rfl, rfl⟩ (by simp) hrows
      (fun _ _ _ _ hwait => hwait) (hsame.symm ▸ hw'), hbegun.worker fun _ _ _ _ _ hwait => hwait⟩
  have hsilent : ∃ new, s.rows = s.rows ++ new ∧ ∀ r ∈ new, r.language = language :=
    ⟨[], (List.append_nil _).symm, by simp⟩
  cases hworks with
  | @stops depth rest hpc hqueue =>
    refine hquiet rfl hsilent (htracked.drops ⟨[], ?_⟩ (by simp [WorkerPc.inHand]))
    simp [Worker.pending, hpc, hqueue, WorkerPc.inHand, List.reduceOption_cons_of_none]
  | @takes depth phrase rest observed action pc hpc hqueue hhand =>
    have hpending : w.pending = phrase :: rest.reduceOption := by
      simp [Worker.pending, hpc, hqueue, WorkerPc.inHand, List.reduceOption_cons_of_some]
    refine hquiet rfl hsilent (htracked.drops ?_ ?_)
    · rcases hhand with hhand | rfl
      · exact ⟨[phrase], by rw [hpending, Worker.pending, hhand]; rfl⟩
      · exact ⟨[], by rw [hpending]; rfl⟩
    · rcases hhand with hhand | rfl
      · simp [hhand]
      · simp [WorkerPc.inHand]
  | @skips depth phrase rest observed action hpc hqueue =>
    refine hquiet rfl ⟨_, rfl, by simp [rowOf]⟩ (htracked.writes (.inl ?_) rfl)
    simp [Worker.pending, hpc, hqueue, WorkerPc.inHand, List.reduceOption_cons_of_some, Worker.take]
  | @leaves event pc hpc hhand hevent hpush =>
    refine hquiet (published_nil hpush) hsilent (htracked.drops ?_ (by simp [hhand]))
    refine ⟨(match w.pc.inHand with | some (phrase, true) => [phrase] | _ => []), ?_⟩
    simp only [Worker.pending, hhand, List.nil_append]
  | @records phrase first hpc =>
    refine hquiet rfl ⟨_, rfl, by simp [rowOf]⟩ (htracked.writes ?_ rfl)
    cases first with
    | true => exact .inl (pending_of_hand (by rw [hpc]; rfl))
    | false =>
      refine .inr ⟨?_, by rw [hpc]; rfl⟩
      rw [pending_of_no_hand (by simp [hpc, WorkerPc.inHand])]
      rfl
  | @hears phrase first speech hpc =>
    cases first with
    | false =>
      refine hquiet rfl hsilent (htracked.drops ⟨[], ?_⟩ ?_)
      · simp [Worker.pending, hpc, WorkerPc.inHand]
      · simp [hpc, WorkerPc.inHand]
    | true =>
      have hstage : latency.Stage.ttsFirstAudio ≠ .published := by decide
      have hwaits : ∀ id l e, s.recorder.Waits id l e →
          (s.recorder.mark phrase.1.chunk_id language .ttsFirstAudio speech.t_wall).Waits id l e :=
        fun _ _ _ hwait => hwait.mark hstage speech.t_wall
      have hdrops : Tracked s ps language { w with pc := .pushing phrase true speech } := by
        refine htracked.drops ⟨[], ?_⟩ (by simp [WorkerPc.inHand])
        simp [Worker.pending, hpc, WorkerPc.inHand]
      refine ⟨n, hkept.worker hw [] (hsame.symm ▸ hkept.books.mark hstage speech.t_wall)
        (mark_limits _ _ _ hstage speech.t_wall) (by simp) hsilent (fun id l e _ => hwaits id l e)
        (hsame.symm ▸ hdrops.recorder fun id e => hwaits id language e), ?_⟩
      exact hbegun.worker fun _ _ chunk _ l => hwaits chunk.chunk_id l chunk.t_audio_end
  | @pushes phrase first speech now pushed hpc =>
    cases first with
    | false =>
      have hnone : published s (.worker language (.pushed (.ok now))) t = [] := by
        simp [published, hw, hpc]
      refine hquiet hnone hsilent (htracked.drops ⟨[], ?_⟩ ?_)
      · simp [Worker.pending, hpc, WorkerPc.inHand]
      · simp [hpc, WorkerPc.inHand]
    | true =>
      have hone : published s (.worker language (.pushed (.ok now))) t =
          [phrase.publication language now] := by
        simp [published, hw, hpc]
      rw [hone]
      simp only [if_true]
      exact metered_publication ha hkept hbegun hw hpc

/-! ## Every step -/

/-- What `Kept` speaks of: the recorder, the rows, the workers and what was
dispatched. -/
theorem Kept.of_eq (h : Kept setup n ps s) (hrecorder : t.recorder = s.recorder)
    (hrows : t.rows = s.rows) (hworkers : t.workers = s.workers)
    (hdispatched : t.dispatched = s.dispatched) : Kept setup n ps t := by
  refine ⟨hrecorder ▸ h.books, hrecorder ▸ h.slo, hrecorder ▸ h.cap, ?_, ?_⟩
  · intro l w hw
    obtain ⟨hsplit, hall, hhand⟩ := h.tracked l w (hworkers ▸ hw)
    exact ⟨by rw [hdispatched, hrows]; exact hsplit, by rw [hrecorder]; exact hall, hhand⟩
  · intro l hl
    rw [hrows]
    exact h.nobody l (hworkers ▸ hl)

theorem metered_start (setup : Setup) : Metered setup (.entered setup) [] := by
  refine ⟨0, ⟨books_fresh _ _, rfl, rfl, ?_, ?_⟩, rfl, rfl⟩
  · intro l w hw
    cases hw
  · intro l _
    exact ⟨fun p hp => (List.not_mem_nil hp).elim, fun r hr => (List.not_mem_nil hr).elim⟩

/-- After a step of `run`, a worker is new, or has at most a stop more in its queue. -/
theorem main_pending {event : MainEvent} (hstage : Stage setup s s.main)
    (hdid : MainDid setup s event t) (hw' : t.workers l = some w') :
    s.workers l = none ∧ w'.pending = [] ∧ w'.pc.inHand = none ∨
      ∃ w, s.workers l = some w ∧ w'.pending = w.pending ∧ w'.pc = w.pc := by
  cases hw : s.workers l with
  | none =>
    rcases main_workers hdid hw' with ⟨-, rfl⟩ | ⟨v, hv, -⟩
    · exact .inl ⟨rfl, rfl, rfl⟩
    · rw [hw] at hv
      cases hv
  | some w =>
    refine .inr ⟨w, rfl, ?_⟩
    rcases (main_frame hstage hdid).workers l w hw with h | h
    · rw [h] at hw'
      cases hw'
      exact ⟨rfl, rfl⟩
    · rw [h] at hw'
      cases hw'
      exact ⟨pending_put_none w, rfl⟩

theorem metered_main {event : MainEvent} (ha : Accounted s) (hstage : Stage setup s s.main)
    (h : Metered setup s ps) (hdid : MainDid setup s event t) : Metered setup t ps := by
  obtain ⟨n, hkept, hbegun⟩ := h
  have hframe := main_frame hstage hdid
  refine ⟨n, ⟨hframe.recorder ▸ hkept.books, hframe.recorder ▸ hkept.slo, hframe.recorder ▸ hkept.cap,
    ?_, ?_⟩, ?_⟩
  · intro l w' hw'
    rcases main_pending hstage hdid hw' with ⟨hw, hpending, hhand⟩ | ⟨w, hw, hpending, hpc⟩
    · -- the worker is new, and nothing was published or stored for it
      obtain ⟨hps, hrows⟩ := hkept.nobody l hw
      refine ⟨⟨[], ?_, fun p hp hl => absurd hl (hps p hp), fun r hr hl => ?_⟩, ?_, ?_⟩
      · rw [hframe.dispatched, ha.nobody l hw, hpending]
        rfl
      · rw [hframe.rows] at hr
        exact absurd hl (hrows r hr)
      · intro phrase hmem
        rw [hpending] at hmem
        cases hmem
      · intro phrase hp
        rw [hhand] at hp
        cases hp
    · obtain ⟨hsplit, hall, hspoken⟩ := hkept.tracked l w hw
      refine ⟨?_, ?_, ?_⟩
      · rw [hframe.dispatched, hframe.rows, hpending]
        exact hsplit
      · rw [hframe.recorder, hpending]
        exact hall
      · rw [hpc]
        exact hspoken
  · intro l hl
    rw [hframe.rows]
    apply hkept.nobody l
    cases hw : s.workers l with
    | none => rfl
    | some w =>
      rcases hframe.workers l w hw with h | h <;> simp [h] at hl
  · unfold Begun at hbegun ⊢
    rw [hframe.chunks, hframe.recorder]
    rcases hframe.pump with hpump | ⟨habsent, hpump⟩
    · rw [hpump]
      exact hbegun
    · rw [habsent] at hbegun
      rw [hpump]
      obtain ⟨hchunks, rfl⟩ := hbegun
      refine ⟨hchunks, ⟨0, ⟨rfl, rfl⟩, rfl⟩, ?_⟩
      intro phase chunk rest hpc
      cases hpc

theorem metered_pump [Unicode] {p : Pump} {event : PumpEvent}
    (hlanguages : ∀ l w, s.workers l = some w → l ∈ setup.config.targetCodes)
    (h : Metered setup s ps) (hpump : s.pump = .active p) (hpumps : Pumps setup s p event t) :
    Metered setup t ps := by
  obtain ⟨n, hkept, hbegun⟩ := h
  unfold Begun at hbegun
  rw [hpump] at hbegun
  obtain ⟨hchunks, ⟨k, hnext, hk⟩, hopen⟩ := hbegun
  have hidle : p.upcoming = [] → k = n := by
    intro hnone
    rw [hk, hnone]
    rfl
  cases hpumps with
  | fails hevent => exact ⟨n, hkept.of_eq rfl rfl rfl rfl, trivial⟩
  | @hears hypothesis audio_at now q hstop hq =>
    have hreceiving : p.upcoming = [] := by
      unfold Pump.hear at hq
      split at hq
      · rename_i hpc
        rw [Pump.upcoming, hpc]
      · cases hq
    exact (hkept.of_eq (t := { s with last_audio_at := audio_at }) rfl rfl rfl rfl).pumpTo hchunks
      (hidle hreceiving ▸ next_hear hnext hq)
  | @finishes event q hevent hq =>
    have hreceiving : p.upcoming = [] := by
      unfold Pump.finish at hq
      split at hq
      · rename_i hpc
        rw [Pump.upcoming, hpc]
      · cases hq
    exact hkept.pumpTo hchunks (hidle hreceiving ▸ next_finish hnext hq)
  | @submitFails phase chunk rest translations now later raised hpc =>
    obtain ⟨hsubmitted, -, -⟩ := hkept.submitAll now translations.items hlanguages
      (hopen phase chunk rest hpc)
    exact ⟨n, hsubmitted.of_eq rfl rfl rfl rfl, trivial⟩
  | @submits phase chunk rest translations now later q hpc hq =>
    obtain ⟨hsubmitted, hcount, -⟩ := hkept.submitAll now translations.items hlanguages
      (hopen phase chunk rest hpc)
    have hn : k + 1 = n := by
      rw [hk, Pump.upcoming, hpc, List.length_cons]
      omega
    exact hsubmitted.pumpTo (hcount.trans hchunks) (hn ▸ next_onward hnext hpc hq)

/-- A frame sets the clock once, before any trace waits. -/
theorem metered_frame (h : Metered setup s ps) (t_audio t_wall : ℚ) :
    Metered setup (s.anchorClock t_audio t_wall) ps := by
  unfold Session.anchorClock
  split
  · exact h
  · rename_i hclock
    rw [Bool.not_eq_true] at hclock
    obtain ⟨n, hkept, hbegun⟩ := h
    have hnone : ∀ id l e, ¬ s.recorder.Waits id l e := by
      rintro id l e ⟨trace, epoch, -, hepoch, -⟩
      rw [AudioClock.anchored, hepoch] at hclock
      cases hclock
    refine ⟨n, hkept.recorder (hkept.books.anchor hclock _) ⟨rfl, rfl⟩
      (fun _ _ _ _ _ hw => absurd hw (hnone _ _ _)), ?_⟩
    exact hbegun.worker (fun _ _ _ _ _ hw => absurd hw (hnone _ _ _))

/-- Every step keeps the recorder metered. -/
theorem metered_step [Unicode] {event : Event} (hs : Sound setup s) (ha : Accounted s)
    (h : Metered setup s ps) (hstep : (sessionRuns setup).step s event = some t) :
    Metered setup t (ps ++ published s event t) := by
  have hquiet : published s event t = [] → Metered setup t ps →
      Metered setup t (ps ++ published s event t) := by
    intro hnone ht
    rw [hnone, List.append_nil]
    exact ht
  cases event with
  | main event =>
    exact hquiet rfl (metered_main ha hs.stage h (Session.mainStep_did hstep))
  | pump event =>
    obtain ⟨p, hpump, hstep⟩ := pump_step hstep
    exact hquiet rfl (metered_pump hs.languages h hpump (Session.pumpStep_pumps hstep))
  | worker language event =>
    obtain ⟨w, hw, hstep⟩ := Option.bind_eq_some_iff.mp hstep
    obtain ⟨w', recorder, drift, rows, rfl, hworks⟩ := Session.workerStep_worked hstep
    exact metered_worker ha h hw hworks
  | watch now =>
    refine hquiet rfl ?_
    obtain ⟨n, hkept, hbegun⟩ := h
    obtain ⟨end_reason, stop, watching, rfl⟩ := watch_step hstep
    exact ⟨n, hkept.of_eq rfl rfl rfl rfl, hbegun⟩
  | frame t_audio t_wall =>
    refine hquiet rfl ?_
    rw [frame_step hstep]
    exact metered_frame h t_audio t_wall

theorem metered_of_run [Unicode] {events : List Event}
    (h : (sessionRuns setup).run events = some s) :
    Metered setup s ((sessionRuns setup).history published events) := by
  refine (sessionRuns setup).run_induction
    (P := fun events s => Metered setup s ((sessionRuns setup).history published events)) ?_ ?_ h
  · exact metered_start setup
  · intro events s event t hrun ih hstep
    rw [(sessionRuns setup).history_snoc published hrun hstep]
    exact metered_step (sound_of_run hrun) (accounted_of_run hrun) ih hstep

/-! ## The account of a session -/

/-- When the pump came to its end, every chunk is either open or published,
once in each language. Of the publications of a language the recorder keeps
the newest 20000 times, in order, and it counts those beyond the objective. -/
theorem every_chunk_is_accounted_for [Unicode] {events : List Event}
    (h : (sessionRuns setup).run events = some s) (hpump : s.pump = .ended none) :
    let ps := (sessionRuns setup).history published events
    (s.recorder.open_chunks.keys ++ ps.map Publication.key).Perm
      (List.range s.chunks ×ˢ setup.config.targetCodes) ∧
    s.recorder.summary.unfinished_chunks + ps.length = s.chunks * setup.config.targets.length ∧
    (∀ l, (s.recorder.stats l).count = min (ps.filter (·.language = l)).length 20000 ∧
      (s.recorder.g2g.lookup l).getD [] =
        ((ps.filter (·.language = l)).map (·.glassToGlass s.recorder.clock)).rtake 20000) ∧
    s.recorder.summary.slo_breaches =
      (ps.filter fun p => p.glassToGlass s.recorder.clock > setup.config.slo_seconds).length := by
  intro ps
  obtain ⟨n, hkept, hbegun⟩ := metered_of_run h
  have hchunks : s.chunks = n := by
    unfold Begun at hbegun
    rw [hpump] at hbegun
    exact hbegun
  subst hchunks
  have hlength := hkept.books.keys.length_eq
  rw [List.length_append, List.length_map, List.length_product, List.length_range,
    SessionConfig.targetCodes, List.length_map] at hlength
  refine ⟨hkept.books.keys, ?_, ?_, ?_⟩
  · exact hlength
  · intro l
    have hsamples := hkept.books.samples l
    rw [kept, hkept.cap] at hsamples
    refine ⟨?_, hsamples⟩
    have hcount : (s.recorder.stats l).count = ((s.recorder.g2g.lookup l).getD []).length := rfl
    rw [hcount, hsamples, List.rtake, List.length_drop, List.length_map]
    exact Nat.sub_sub_eq_min _ _
  · have hbreaches := hkept.books.breaches
    rw [hkept.slo] at hbreaches
    exact hbreaches

end

open ascii

/-- The phrase of the short talk is spoken, and the session comes to its end. -/
def spokenTalk : List Event :=
  shortTalk ++ [.worker "fr" (.synthesised (.ok (some ⟨[], 16000, 3⟩))),
    .worker "fr" (.pushed (.ok 3)), .worker "fr" (.synthesised (.ok none)),
    .worker "fr" (.recorded none), .pump .sourceEnded, .main .raced, .worker "fr" (.took (.ok 0)),
    .main .stopped, .main (.closed none), .main (.settled none)]

theorem spokenTalk_evaluated : (((sessionRuns oneLanguage).run spokenTalk).bind fun s =>
    match s.pump with
    | .ended none => some (s.chunks, s.closed)
    | _ => none) = some (1, 1) := by
  decide +kernel

theorem every_chunk_is_accounted_for_in_a_spoken_talk :
    ∃ s, (sessionRuns oneLanguage).run spokenTalk = some s ∧ s.closed = 1 ∧
      s.recorder.summary.unfinished_chunks +
        ((sessionRuns oneLanguage).history published spokenTalk).length = 1 := by
  obtain ⟨s, hrun, hs⟩ := Option.bind_eq_some_iff.mp spokenTalk_evaluated
  split at hs
  · rename_i hpump
    obtain ⟨hchunks, hclosed⟩ := Prod.mk.inj (Option.some.inj hs)
    have hlaws := every_chunk_is_accounted_for hrun hpump
    refine ⟨s, hrun, hclosed, ?_⟩
    rw [hlaws.2.1, hchunks]
    rfl
  · cases hs

end lad_translate.pipeline
