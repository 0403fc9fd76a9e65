-- The latency of a transcript row. The session writes the median of the
-- language where the column asks for the time of the row's own chunk, so a
-- row is right exactly when the two agree.
import LadTranslate.Metering

namespace lad_translate.pipeline

open phrase_chunker latency drift sessions LatencyRecorder

/-! ## What leaves the rows and the clock -/

section

variable {setup : Setup} {s t : Session}

/-- The rows and the clock are as they were. -/
def SameRows (s t : Session) : Prop := t.rows = s.rows ∧ t.recorder.clock = s.recorder.clock

theorem submitAll_rows (chunk : PhraseChunk) (now : ℚ) (items : List (String × String))
    (s : Session) : SameRows s (s.submitAll chunk now items).1 := by
  induction items generalizing s with
  | nil => exact ⟨rfl, rfl⟩
  | cons item items ih =>
    obtain ⟨language, text⟩ := item
    unfold Session.submitAll
    simp only
    split
    · exact ⟨rfl, mark_clock _ _ _ _ _⟩
    · obtain ⟨hrows, hclock⟩ := ih _
      exact ⟨hrows, hclock.trans (mark_clock _ _ _ _ _)⟩

theorem pumpTo_rows (setup : Setup) (s : Session) (q : Pump) : SameRows s (s.pumpTo setup q) := by
  unfold Session.pumpTo
  split
  · exact ⟨rfl, rfl⟩
  · exact ⟨rfl, rfl⟩
  · rename_i phase chunk rest hpc
    rw [beginDispatch_eq]
    cases hopen : s.recorder.openAll chunk.chunk_id chunk.t_audio_end chunk.t_wall_committed
        setup.config.targetCodes with
    | error text => exact ⟨rfl, rfl⟩
    | ok r =>
      have hclock := openAll_clock _ hopen
      refine ⟨rfl, ?_⟩
      simp only
      split <;> exact hclock

theorem pump_rows [Unicode] {p : Pump} {event : PumpEvent} (h : Pumps setup s p event t) :
    SameRows s t := by
  cases h with
  | fails hevent => exact ⟨rfl, rfl⟩
  | hears hstop hq => exact pumpTo_rows setup _ _
  | finishes hevent hq => exact pumpTo_rows setup s _
  | submitFails hpc => exact submitAll_rows _ _ _ s
  | submits hpc hq =>
    obtain ⟨hrows, hclock⟩ := pumpTo_rows setup _ _
    obtain ⟨hrows', hclock'⟩ := submitAll_rows _ _ _ s
    exact ⟨hrows.trans hrows', hclock.trans hclock'⟩

end

/-! ## The row's own latency -/

/-- The time of the row's own chunk in its language, when any audio of it was
published. -/
def ownLatency (clock : AudioClock) (ps : List Publication) (r : TranscriptRow) : Option ℚ :=
  (ps.find? fun p => p.language = r.language ∧ (p.chunk_id : Int) = r.chunk_id).map
    (·.glassToGlass clock)

/-- Every row tells the time of its own chunk. -/
def RowsTell (s : Session) (ps : List Publication) : Prop :=
  ∀ r ∈ s.rows, r.latency_s = ownLatency s.recorder.clock ps r

/-- At the end of a synthesis: when no block of the phrase was pushed, nothing
was published in its language, and otherwise the median of the language is the
newest of its times. -/
def MedianTells (clock : AudioClock) (ps : List Publication) (language : String)
    (first : Bool) : Prop :=
  if first then ps.filter (·.language = language) = []
  else percentile (kept 20000 clock ps language) (50 / 100) =
    (kept 20000 clock ps language).getLastD 0

section

variable {setup : Setup} {s t : Session} {n : Nat} {ps : List Publication} {language : String}
  {w w' : Worker}

/-- A publication of another phrase is nothing to a row. -/
theorem ownLatency_snoc (clock : AudioClock) (ps : List Publication) {p : Publication}
    {r : TranscriptRow} (h : p.language = r.language → (p.chunk_id : Int) ≠ r.chunk_id) :
    ownLatency clock (ps ++ [p]) r = ownLatency clock ps r := by
  have hnone : [p].find? (fun p => p.language = r.language ∧ (p.chunk_id : Int) = r.chunk_id) =
      none := by
    rw [List.find?_eq_none]
    intro x hx
    rw [List.mem_singleton.mp hx, decide_eq_true_eq]
    exact fun hp => h hp.1 hp.2
  unfold ownLatency
  rw [List.find?_append, hnone, Option.or_none]

/-- The row of a phrase that is not published. -/
theorem ownLatency_unpublished (clock : AudioClock) {phrase : Phrase} {latency : Option ℚ}
    (h : ∀ p ∈ ps, p.language = language → p.chunk_id ≠ phrase.1.chunk_id) :
    ownLatency clock ps (rowOf language phrase latency) = none := by
  unfold ownLatency
  rw [Option.map_eq_none_iff, List.find?_eq_none]
  intro p hp
  rw [decide_eq_true_eq]
  rintro ⟨hl, hid⟩
  exact h p hp hl (by simpa [rowOf] using hid)

/-- The row of a phrase that is published. -/
theorem ownLatency_published (clock : AudioClock) {phrase : Phrase} {latency : Option ℚ} {now : ℚ}
    (hkeys : (ps.map Publication.key).Nodup) (hmem : phrase.publication language now ∈ ps) :
    ownLatency clock ps (rowOf language phrase latency) =
      some ((phrase.publication language now).glassToGlass clock) := by
  unfold ownLatency
  cases hfind : ps.find? (fun p => p.language = (rowOf language phrase latency).language ∧
      (p.chunk_id : Int) = (rowOf language phrase latency).chunk_id) with
  | none =>
    rw [List.find?_eq_none] at hfind
    exact absurd (by simp [rowOf, Phrase.publication]) (hfind _ hmem)
  | some p =>
    have hp := List.mem_of_find?_eq_some hfind
    have hkey := List.find?_some hfind
    simp only [rowOf, decide_eq_true_eq, Nat.cast_inj] at hkey
    have heq : p = phrase.publication language now := by
      apply List.inj_on_of_nodup_map hkeys hp hmem
      rw [Publication.key, hkey.1, hkey.2]
      rfl
    rw [heq, Option.map_some]

/-- The median of a language is read at the end of a synthesis, and it is not
the time of the phrase. -/
def Misreads (p : Session × List Publication) (event : Event) : Prop :=
  ∃ language w phrase first, event = .worker language (.synthesised (.ok none)) ∧
    p.1.workers language = some w ∧ w.pc = .synthesising phrase first ∧
    ¬ MedianTells p.1.recorder.clock p.2 language first

/-- A step that is no end of a synthesis reads no median. -/
theorem not_misreads (hw : s.workers language = some w) {event : WorkerEvent}
    (hevent : event = .synthesised (.ok none) → ∀ phrase first, w.pc ≠ .synthesising phrase first) :
    ¬ Misreads (s, ps) (.worker language event) := by
  rintro ⟨l, v, phrase, first, heq, hv, hpc, -⟩
  cases heq
  rw [hw] at hv
  cases hv
  exact hevent rfl phrase first hpc

theorem misreads_iff (hw : s.workers language = some w) {phrase : Phrase} {first : Bool}
    (hpc : w.pc = .synthesising phrase first) :
    Misreads (s, ps) (.worker language (.synthesised (.ok none))) ↔
      ¬ MedianTells s.recorder.clock ps language first := by
  constructor
  · rintro ⟨l, v, phrase', first', heq, hv, hpc', hno⟩
    cases heq
    rw [hw] at hv
    cases hv
    rw [hpc] at hpc'
    cases hpc'
    exact hno
  · intro hno
    exact ⟨language, w, phrase, first, rfl, hw, hpc, hno⟩

theorem rowsTell_of_same (h : SameRows s t) : RowsTell t ps ↔ RowsTell s ps := by
  unfold RowsTell
  rw [h.1, h.2]

/-- The rows and one more. -/
theorem rowsTell_snoc {r : TranscriptRow} (hrows : t.rows = s.rows ++ [r])
    (hclock : t.recorder.clock = s.recorder.clock) :
    RowsTell t ps ↔ RowsTell s ps ∧ r.latency_s = ownLatency s.recorder.clock ps r := by
  unfold RowsTell
  rw [hrows, hclock]
  simp only [List.mem_append, List.mem_singleton, or_imp, forall_and, forall_eq]

/-- A phrase that waits is not published. -/
theorem unpublished_of_pending (ha : Accounted s) (htracked : Tracked s ps language w)
    {phrase : Phrase} (hmem : phrase ∈ w.pending) :
    (∀ p ∈ ps, p.language = language → p.chunk_id ≠ phrase.1.chunk_id) ∧
      ∀ r ∈ s.rows, r.language = language → r.chunk_id ≠ phrase.1.chunk_id := by
  obtain ⟨done, hdone, hps, hrows⟩ := htracked.split
  have hup := ha.upwards language
  unfold Session.ids at hup
  rw [hdone, List.map_append, List.pairwise_append] at hup
  have hlt : ∀ x ∈ done, x.1.chunk_id < phrase.1.chunk_id := fun x hx =>
    hup.2.2 _ (List.mem_map_of_mem (f := fun x : Phrase => x.1.chunk_id) hx) _
      (List.mem_map_of_mem (f := fun x : Phrase => x.1.chunk_id) hmem)
  refine ⟨?_, ?_⟩
  · intro p hp hl heq
    obtain ⟨x, hx, hid⟩ := List.mem_map.mp (hps p hp hl)
    exact absurd (hid.trans heq) (hlt x hx).ne
  · intro r hr hl heq
    obtain ⟨x, hx, hid⟩ := hrows r hr hl
    rw [hid, Nat.cast_inj] at heq
    exact absurd heq (hlt x hx).ne

/-- The newest time of a language is that of its newest publication. -/
theorem kept_newest (clock : AudioClock) {p : Publication}
    (hlast : (ps.filter (·.language = language)).getLast? = some p) :
    kept 20000 clock ps language ≠ [] ∧
      (kept 20000 clock ps language).getLastD 0 = p.glassToGlass clock := by
  obtain ⟨ys, hys⟩ := List.getLast?_eq_some_iff.mp hlast
  have hkept : kept 20000 clock ps language =
      (ys.map (·.glassToGlass clock)).rtake 19999 ++ [p.glassToGlass clock] := by
    rw [kept, hys, List.map_append, List.map_singleton]
    exact List.rtake_concat_succ _ 19999 _
  rw [hkept]
  exact ⟨by simp, by simp⟩

/-- The row at the end of a synthesis is right exactly when the median tells. -/
theorem recorded_row_tells_iff (ha : Accounted s) (hkept : Kept setup n ps s)
    (hw : s.workers language = some w) {phrase : Phrase} {first : Bool}
    (hpc : w.pc = .synthesising phrase first) :
    (if (s.recorder.stats language).count ≠ 0 then some (s.recorder.stats language).p50 else none) =
      ownLatency s.recorder.clock ps (rowOf language phrase
        (if (s.recorder.stats language).count ≠ 0 then some (s.recorder.stats language).p50
          else none)) ↔
      MedianTells s.recorder.clock ps language first := by
  have htracked := hkept.tracked language w hw
  have htimes : (s.recorder.g2g.lookup language).getD [] =
      kept 20000 s.recorder.clock ps language := by
    rw [hkept.books.samples language, hkept.cap]
  have hcount : (s.recorder.stats language).count =
      (kept 20000 s.recorder.clock ps language).length := htimes ▸ rfl
  have hmedian : (s.recorder.stats language).p50 =
      percentile (kept 20000 s.recorder.clock ps language) (50 / 100) := htimes ▸ rfl
  unfold MedianTells
  cases first with
  | true =>
    have hmem : phrase ∈ w.pending := by
      rw [pending_of_hand (by rw [hpc]; rfl)]
      exact List.mem_cons_self
    rw [ownLatency_unpublished _ (unpublished_of_pending ha htracked hmem).1, hcount, if_pos rfl]
    have hempty : (kept 20000 s.recorder.clock ps language).length = 0 ↔
        ps.filter (·.language = language) = [] := by
      rw [kept, List.rtake, List.length_drop, List.length_map, ← List.length_eq_zero_iff]
      omega
    rw [← hempty]
    split <;> simp_all
  | false =>
    obtain ⟨now, hlast⟩ := htracked.hand phrase (by rw [hpc]; rfl)
    obtain ⟨hne, hnewest⟩ := kept_newest s.recorder.clock hlast
    have hkeys : (ps.map Publication.key).Nodup := by
      have hall := hkept.books.keys.nodup_iff.mpr
        (List.nodup_range.product setup.config.targetCodes_nodup)
      exact (List.nodup_append.mp hall).2.1
    have hmem : phrase.publication language now ∈ ps :=
      List.mem_of_mem_filter (List.mem_of_getLast? hlast)
    rw [ownLatency_published _ hkeys hmem, hcount, if_pos (by simpa using hne), hmedian,
      Option.some.injEq, hnewest]
    simp

/-- What a step of a worker does to the rows. -/
theorem rowsTell_worker (hstore : setup.store = true) (ha : Accounted s) (hkept : Kept setup n ps s)
    (hw : s.workers language = some w) {event : WorkerEvent} {recorder : LatencyRecorder}
    {drift : DriftController} {rows : List TranscriptRow}
    (hworks : Works setup s language w event w' recorder rows)
    (ht : t = { s with workers := Function.update s.workers language (some w'), recorder, drift, rows }) :
    RowsTell t (ps ++ published s (.worker language event) t) ↔
      RowsTell s ps ∧ ¬ Misreads (s, ps) (.worker language event) := by
  have htracked := hkept.tracked language w hw
  have htrows : t.rows = rows := by rw [ht]
  have htrecorder : t.recorder = recorder := by rw [ht]
  -- a step that reads no median
  have hread : (event = .synthesised (.ok none) → ∀ phrase first, w.pc ≠ .synthesising phrase first) →
      ¬ Misreads (s, ps) (.worker language event) := not_misreads hw
  have hquiet : SameRows s t → published s (.worker language event) t = [] →
      ¬ Misreads (s, ps) (.worker language event) →
      (RowsTell t (ps ++ published s (.worker language event) t) ↔
        RowsTell s ps ∧ ¬ Misreads (s, ps) (.worker language event)) := by
    intro hsame hnone hno
    rw [hnone, List.append_nil, rowsTell_of_same hsame]
    exact (and_iff_left hno).symm
  cases hworks with
  | stops hpc hqueue => exact hquiet ⟨htrows, by rw [htrecorder]⟩ rfl (hread (by simp))
  | takes hpc hqueue hhand => exact hquiet ⟨htrows, by rw [htrecorder]⟩ rfl (hread (by simp))
  | @skips depth phrase rest observed action hpc hqueue =>
    have hmem : phrase ∈ w.pending := by
      simp [Worker.pending, hpc, hqueue, WorkerPc.inHand, List.reduceOption_cons_of_some]
    have hnone : published s (.worker language (.took depth)) t = [] := rfl
    rw [hnone, List.append_nil, rowsTell_snoc htrows (by rw [htrecorder]),
      ownLatency_unpublished _ (unpublished_of_pending ha htracked hmem).1]
    exact and_congr_right fun _ => iff_of_true rfl (hread (by simp))
  | @leaves event pc hpc hhand hevent hpush =>
    refine hquiet ⟨htrows, by rw [htrecorder]⟩ (published_nil hpush) (hread ?_)
    intro heq
    rw [hevent heq] at hstore
    cases hstore
  | @records phrase first hpc =>
    have hnone : published s (.worker language (.synthesised (.ok none))) t = [] := rfl
    rw [hnone, List.append_nil, rowsTell_snoc htrows (by rw [htrecorder])]
    refine and_congr_right fun _ => ?_
    apply (recorded_row_tells_iff ha hkept hw hpc).trans
    rw [misreads_iff hw hpc, not_not]
  | @hears phrase first speech hpc =>
    refine hquiet ⟨htrows, ?_⟩ rfl (hread (by simp))
    rw [htrecorder]
    cases first with
    | false => rfl
    | true => exact mark_clock _ _ _ _ _
  | @pushes phrase first speech now pushed hpc =>
    have hno : ¬ Misreads (s, ps) (.worker language (.pushed (.ok now))) := hread (by simp)
    cases first with
    | false =>
      refine hquiet ⟨htrows, by rw [htrecorder]; rfl⟩ ?_ hno
      simp [published, hw, hpc]
    | true =>
      have hone : published s (.worker language (.pushed (.ok now))) t =
          [phrase.publication language now] := by
        simp [published, hw, hpc]
      have hmem : phrase ∈ w.pending := by
        rw [pending_of_hand (by rw [hpc]; rfl)]
        exact List.mem_cons_self
      have hrows := (unpublished_of_pending ha htracked hmem).2
      have hsame : SameRows s t := ⟨htrows, by rw [htrecorder]; exact mark_clock _ _ _ _ _⟩
      -- the rows before it belong to other phrases
      have hold : RowsTell t (ps ++ [phrase.publication language now]) ↔ RowsTell t ps := by
        refine forall₂_congr fun r hr => ?_
        rw [ownLatency_snoc _ _ fun hl heq => hrows r (hsame.1 ▸ hr) hl.symm heq.symm]
      rw [hone, hold, rowsTell_of_same hsame]
      exact (and_iff_left hno).symm

/-- What a step does to the rows. -/
theorem rowsTell_step [Unicode] (hstore : setup.store = true) {event : Event} (hs : Sound setup s)
    (ha : Accounted s) (hm : Metered setup s ps)
    (hstep : (sessionRuns setup).step s event = some t) :
    RowsTell t (ps ++ published s event t) ↔ RowsTell s ps ∧ ¬ Misreads (s, ps) event := by
  obtain ⟨n, hkept, -⟩ := hm
  have hquiet : SameRows s t → (∀ l e, event ≠ .worker l e) →
      (RowsTell t (ps ++ published s event t) ↔ RowsTell s ps ∧ ¬ Misreads (s, ps) event) := by
    intro hsame hother
    have hnone : published s event t = [] := by
      unfold published
      split
      · rename_i l now
        exact absurd rfl (hother _ _)
      · rfl
    have hno : ¬ Misreads (s, ps) event := by
      rintro ⟨l, w, phrase, first, heq, -⟩
      exact hother _ _ heq
    rw [hnone, List.append_nil, rowsTell_of_same hsame]
    exact (and_iff_left hno).symm
  cases event with
  | main event =>
    have hframe := main_frame hs.stage (Session.mainStep_did hstep)
    exact hquiet ⟨hframe.rows, by rw [hframe.recorder]⟩ (by simp)
  | pump event =>
    obtain ⟨p, -, hstep⟩ := pump_step hstep
    exact hquiet (pump_rows (Session.pumpStep_pumps hstep)) (by simp)
  | worker language event =>
    obtain ⟨w, hw, hstep⟩ := Option.bind_eq_some_iff.mp hstep
    obtain ⟨w', recorder, drift, rows, ht, hworks⟩ := Session.workerStep_worked hstep
    exact rowsTell_worker hstore ha hkept hw hworks ht
  | watch now =>
    obtain ⟨end_reason, stop, watching, rfl⟩ := watch_step hstep
    exact hquiet ⟨rfl, rfl⟩ (by simp)
  | frame t_audio t_wall =>
    obtain rfl := frame_step hstep
    by_cases hclock : s.recorder.clock.anchored = true
    · refine hquiet ?_ (by simp)
      unfold Session.anchorClock
      rw [if_pos hclock]
      exact ⟨rfl, rfl⟩
    · -- nothing is published before the clock is set
      have hnone : ps = [] := by
        by_contra hne
        exact hclock (hkept.books.anchored hne)
      subst hnone
      have hboth : RowsTell (s.anchorClock t_audio t_wall) [] ↔ RowsTell s [] := by
        obtain ⟨recorder, heq⟩ := anchorClock_eq s t_audio t_wall
        rw [heq]
        exact Iff.rfl
      refine hboth.trans (and_iff_left ?_).symm
      rintro ⟨l, w, phrase, first, heq, -⟩
      cases heq

/-! ## The rows of a run -/

variable [Unicode] {events : List Event}

/-- In a session with a store, every row tells the time of its own chunk in
its language exactly when, at each end of a synthesis, the median of the
language is the newest of its times, or nothing was published in the language
and no block of the phrase was pushed. -/
theorem each_row_tells_its_own_latency_iff (hstore : setup.store = true)
    (h : (sessionRuns setup).run events = some s) :
    RowsTell s ((sessionRuns setup).history published events) ↔
      ∀ xs language ys u w phrase first,
        events = xs ++ .worker language (.synthesised (.ok none)) :: ys →
        (sessionRuns setup).run xs = some u → u.workers language = some w →
        w.pc = .synthesising phrase first →
        MedianTells u.recorder.clock ((sessionRuns setup).history published xs) language first := by
  have hrun := (sessionRuns setup).observed_run.mpr
    (⟨h, rfl⟩ : (sessionRuns setup).run events = some (s, _).1 ∧
      (s, (sessionRuns setup).history published events).2 = _)
  have hflag := ((sessionRuns setup).observed published).flag_iff
    (P := fun p => Sound setup p.1 ∧ Accounted p.1 ∧ Metered setup p.1 p.2)
    (fun p => ¬ RowsTell p.1 p.2) Misreads
    ⟨sound_start setup, accounted_start setup, metered_start setup⟩
    (fun p event q hp hstep => by
      obtain ⟨hs, ha, hm⟩ := hp
      obtain ⟨hstep, hnote⟩ := (sessionRuns setup).observed_step.mp hstep
      exact ⟨sound_step hs hstep, accounted_step hs ha hstep, hnote ▸ metered_step hs ha hm hstep⟩)
    (fun hno => hno fun r hr => (List.not_mem_nil hr).elim)
    (fun p event q hp hstep => by
      obtain ⟨hs, ha, hm⟩ := hp
      obtain ⟨hstep, hnote⟩ := (sessionRuns setup).observed_step.mp hstep
      rw [hnote, rowsTell_step hstore hs ha hm hstep]
      tauto)
    hrun
  constructor
  · intro htell xs language ys u w phrase first hsplit hu hw hpc
    by_contra hno
    refine (not_not.mpr htell)
      (hflag.mpr ⟨xs, _, ys, (u, _), hsplit, ?_, (misreads_iff hw hpc).mpr hno⟩)
    exact (sessionRuns setup).observed_run.mpr ⟨hu, rfl⟩
  · intro hall
    by_contra hno
    obtain ⟨xs, event, ys, ⟨u, qs⟩, hsplit, hu, language, w, phrase, first, rfl, hw, hpc, hwrong⟩ :=
      hflag.mp hno
    obtain ⟨hu, rfl⟩ := (sessionRuns setup).observed_run.mp hu
    exact hwrong (hall xs language ys u w phrase first hsplit hu hw hpc)

end

/-! ## Two phrases of a talk -/

open ascii

/-- The row of a talk with one phrase tells its own time. -/
theorem each_row_tells_its_own_latency_in_a_spoken_talk :
    ∃ s, (sessionRuns oneLanguage).run spokenTalk = some s ∧
      (RowsTell s ((sessionRuns oneLanguage).history published spokenTalk) ↔
        ∀ xs language ys u w phrase first,
          spokenTalk = xs ++ .worker language (.synthesised (.ok none)) :: ys →
          (sessionRuns oneLanguage).run xs = some u → u.workers language = some w →
          w.pc = .synthesising phrase first →
          MedianTells u.recorder.clock ((sessionRuns oneLanguage).history published xs) language
            first) := by
  obtain ⟨s, hrun, -⟩ := Option.bind_eq_some_iff.mp spokenTalk_evaluated
  exact ⟨s, hrun, each_row_tells_its_own_latency_iff rfl hrun⟩

/-- A second phrase: it is published four seconds after its end, and the first
one was published after two. -/
def secondPhrase : List Event :=
  shortTalk ++ [.worker "fr" (.synthesised (.ok (some ⟨[], 16000, 3⟩))),
    .worker "fr" (.pushed (.ok 3)), .worker "fr" (.synthesised (.ok none)),
    .worker "fr" (.recorded none),
    .pump (.heard (.spoken "good morning everyone thank you" true 5) 5 5),
    .pump (.translated (.ok ⟨[("fr", "merci")], by simp⟩) 6 6), .worker "fr" (.took (.ok 0)),
    .worker "fr" (.synthesised (.ok (some ⟨[], 16000, 8⟩))), .worker "fr" (.pushed (.ok 9)),
    .worker "fr" (.synthesised (.ok none))]

theorem percentile_of_two : percentile [2, 4] (50 / 100) = 3 := by
  have hsorted : ([2, 4] : List ℚ).mergeSort = [2, 4] :=
    List.mergeSort_of_pairwise (by decide +kernel)
  unfold percentile
  rw [if_neg (by simp), hsorted]
  decide +kernel

/-- The row of the second phrase gets the median, three seconds. -/
theorem a_row_tells_the_median :
    ∃ s, (sessionRuns oneLanguage).run secondPhrase = some s ∧
      ¬ RowsTell s ((sessionRuns oneLanguage).history published secondPhrase) := by
  have hbefore : ((sessionRuns oneLanguage).run secondPhrase.dropLast).bind (fun u =>
      (u.workers "fr").bind fun w => w.pc.inHand.map fun hand =>
        (decide (w.pc = .synthesising hand.1 false), kept 20000 u.recorder.clock
          ((sessionRuns oneLanguage).history published secondPhrase.dropLast) "fr")) =
      some (true, [2, 4]) := by decide +kernel
  obtain ⟨u, hu, hw⟩ := Option.bind_eq_some_iff.mp hbefore
  obtain ⟨w, hw, hpc⟩ := Option.bind_eq_some_iff.mp hw
  obtain ⟨⟨phrase, first⟩, -, hread⟩ := Option.map_eq_some_iff.mp hpc
  obtain ⟨hpc, hkept⟩ := Prod.mk.inj hread
  have hpc := of_decide_eq_true hpc
  have hsplit : secondPhrase =
      secondPhrase.dropLast ++ [.worker "fr" (.synthesised (.ok none))] := rfl
  obtain ⟨t, hstep⟩ : ∃ t, (sessionRuns oneLanguage).step u
      (.worker "fr" (.synthesised (.ok none))) = some t := by
    simp only [sessionRuns, hw, Option.bind_some, Session.workerStep, hpc]
    exact ⟨_, rfl⟩
  have hrun : (sessionRuns oneLanguage).run secondPhrase = some t := by
    rw [hsplit]
    exact (sessionRuns oneLanguage).run_snoc_some.mpr ⟨u, hu, hstep⟩
  refine ⟨t, hrun, ?_⟩
  have hrows := rowsTell_step rfl (sound_of_run hu) (accounted_of_run hu) (metered_of_run hu) hstep
  rw [hsplit, (sessionRuns oneLanguage).history_snoc published hu hstep, hrows]
  rintro ⟨-, hread⟩
  apply hread
  apply (misreads_iff hw hpc).mpr
  unfold MedianTells
  rw [hkept, percentile_of_two]
  norm_num

end lad_translate.pipeline
