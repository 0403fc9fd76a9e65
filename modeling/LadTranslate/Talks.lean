-- A session is a talk: the pump makes calls on one chunker, and every phrase
-- that goes to a language is a chunk of that talk. Each publication is of such
-- a phrase.
import LadTranslate.Emissions
import LadTranslate.Metering

open machines

namespace lad_translate.pipeline

open phrase_chunker latency

/-! ## The calls of the pump -/

/-- The calls that the pump makes on its chunker for an event. -/
def pumpCalls [Unicode] (s : Session) (p : Pump) : PumpEvent → List Call
  | .heard hypothesis _ now =>
    if s.stop then [.flush]
    else
      match p.chunker.feed hypothesis with
      | some (_, []) => [.feed hypothesis, .tick now]
      | _ => [.feed hypothesis]
  | .sourceEnded => [.flush]
  | .translated (.ok translations) now later =>
    match p.pc with
    -- the loop over the feed is over, and the tick comes after it
    | .translating .feeding chunk [] =>
      match (s.submitAll chunk now translations.items).2 with
      | none => [.tick later]
      | some _ => []
    | _ => []
  | _ => []

/-- What an observer of the chunker notes. -/
def calls [Unicode] (s : Session) (event : Event) (_ : Session) : List Call :=
  match event, s.pump with
  | .pump event, .active p => pumpCalls s p event
  | _, _ => []

/-! ## The pump as a talk -/

section

variable [Unicode] {config : ChunkerConfig} {h : 1 ≤ config.agreement_n} {t u : Talk}

/-- The pump's chunker is the one of the talk, and its chunks to come are
emitted. -/
def Pump.Speaks (p : Pump) (t : Talk) : Prop :=
  p.chunker = t.chunker ∧ ∀ c ∈ p.upcoming, c ∈ t.emitted

/-- A call of the pump, and the chunks that it emits. -/
theorem talks_call {a : Call} {c : PhraseChunker} {out : List PhraseChunk}
    (hcall : t.chunker.call a = some (c, out)) :
    (talks config h).step t a = some ⟨c, t.emitted ++ out⟩ := by
  rw [talks_step]
  exact ⟨out, hcall, rfl⟩

omit [Unicode] in
theorem speaks_dispatching (phase : Phase) (c : PhraseChunker) (chunks : List PhraseChunk)
    {next : PumpPc} (hnext : next = .receiving ∨ next = .returned) :
    (Pump.dispatching phase c chunks next).Speaks ⟨c, t.emitted ++ chunks⟩ := by
  refine ⟨Pump.dispatching_chunker phase c chunks next, ?_⟩
  rw [Pump.upcoming_dispatching phase c chunks hnext]
  exact fun x hx => List.mem_append_right _ hx

theorem speaks_ticked (config : ChunkerConfig) (h : 1 ≤ config.agreement_n) {q : Pump} {now : ℚ}
    (hq : Pump.ticked t.chunker now = some q) :
    ∃ u, (talks config h).step t (.tick now) = some u ∧ q.Speaks u ∧ t.emitted <+: u.emitted := by
  obtain ⟨⟨c, out⟩, htick, rfl⟩ := Option.map_eq_some_iff.mp hq
  exact ⟨_, talks_call htick, speaks_dispatching .ticking c out (.inl rfl), List.prefix_append _ _⟩

theorem speaks_hear {p q : Pump} {hyp : Hypothesis} (audio_at : ℚ) {now : ℚ} {s : Session}
    (hstop : s.stop = false) (hp : p.Speaks t) (hq : p.hear hyp now = some q) :
    ∃ u, (talks config h).runFrom t (pumpCalls s p (.heard hyp audio_at now)) = some u ∧
      q.Speaks u ∧ t.emitted <+: u.emitted := by
  obtain ⟨hchunker, -⟩ := hp
  unfold Pump.hear at hq
  unfold pumpCalls
  simp only [hstop, Bool.false_eq_true, if_false]
  split at hq
  case h_2 => cases hq
  case h_1 hpc =>
    split at hq
    · cases hq
    · rename_i c hfeed
      rw [hfeed]
      rw [hchunker] at hfeed
      have hstep : (talks config h).step t (.feed hyp) = some ⟨c, t.emitted ++ []⟩ := talks_call hfeed
      rw [List.append_nil] at hstep
      obtain ⟨u, hu, hspeaks, hgrows⟩ := speaks_ticked config h (t := ⟨c, t.emitted⟩) hq
      refine ⟨u, ?_, hspeaks, hgrows⟩
      simp [Machine.runFrom_cons, hstep, hu]
    · rename_i c chunk rest hfeed
      cases hq
      rw [hfeed]
      rw [hchunker] at hfeed
      have hstep : (talks config h).step t (.feed hyp) = some ⟨c, t.emitted ++ chunk :: rest⟩ :=
        talks_call hfeed
      refine ⟨⟨c, t.emitted ++ chunk :: rest⟩, ?_, ?_, List.prefix_append _ _⟩
      · simp [Machine.runFrom_cons, hstep]
      · exact ⟨rfl, fun x hx => List.mem_append_right _ hx⟩

theorem speaks_finish {p q : Pump} (hp : p.Speaks t) (hq : p.finish = some q) :
    ∃ u, (talks config h).runFrom t [.flush] = some u ∧ q.Speaks u ∧ t.emitted <+: u.emitted := by
  obtain ⟨hchunker, -⟩ := hp
  unfold Pump.finish at hq
  split at hq
  case h_2 => cases hq
  case h_1 hpc =>
    rw [hchunker] at hq
    obtain ⟨⟨c, out⟩, hflush, rfl⟩ := Option.map_eq_some_iff.mp hq
    have hstep : (talks config h).step t .flush = some ⟨c, t.emitted ++ out⟩ := talks_call hflush
    refine ⟨⟨c, t.emitted ++ out⟩, ?_, speaks_dispatching .flushing c out (.inr rfl),
      List.prefix_append _ _⟩
    simp [Machine.runFrom_cons, hstep]

theorem speaks_onward {p q : Pump} {phase : Phase} {chunk : PhraseChunk} {rest : List PhraseChunk}
    (translations : Translations) (now : ℚ) {later : ℚ} (s : Session) (hp : p.Speaks t)
    (hpc : p.pc = .translating phase chunk rest)
    (hsubmitted : (s.submitAll chunk now translations.items).2 = none)
    (hq : p.onward later = some q) :
    ∃ u, (talks config h).runFrom t (pumpCalls s p (.translated (.ok translations) now later)) =
      some u ∧ q.Speaks u ∧ t.emitted <+: u.emitted := by
  obtain ⟨hchunker, hup⟩ := hp
  rw [Pump.upcoming, hpc] at hup
  unfold Pump.onward at hq
  unfold pumpCalls
  rw [hpc] at hq ⊢
  cases rest with
  | cons next rest =>
    cases hq
    refine ⟨t, by cases phase <;> rfl, ⟨hchunker, ?_⟩, List.prefix_refl _⟩
    exact fun x hx => hup x (List.mem_cons_of_mem _ hx)
  | nil =>
    cases phase with
    | feeding =>
      simp only at hq ⊢
      rw [hchunker] at hq
      obtain ⟨u, hu, hspeaks, hgrows⟩ := speaks_ticked config h hq
      refine ⟨u, ?_, hspeaks, hgrows⟩
      rw [hsubmitted]
      simp [Machine.runFrom_cons, hu]
    | ticking =>
      cases hq
      exact ⟨t, rfl, ⟨hchunker, by simp [Pump.upcoming]⟩, List.prefix_refl _⟩
    | flushing =>
      cases hq
      exact ⟨t, rfl, ⟨hchunker, by simp [Pump.upcoming]⟩, List.prefix_refl _⟩

end

/-! ## A session as a talk -/

/-- The pump's talk, by where the pump is. A pump that is over makes no more
calls. -/
def PumpTask.Speaks (pump : PumpTask) (setup : Setup) (t : Talk) : Prop :=
  match pump with
  | .absent => t = ⟨.fresh setup.config.chunker setup.agreement, []⟩
  | .active p => p.Speaks t
  | .ended _ => True

/-- The calls so far are a talk, and every phrase that was dispatched is of one
of its chunks. -/
def Voiced [Unicode] (setup : Setup) (ls : List Call) (s : Session) : Prop :=
  ∃ t, (talks setup.config.chunker setup.agreement).run ls = some t ∧ s.pump.Speaks setup t ∧
    ∀ l, ∀ phrase ∈ s.dispatched l, phrase.1 ∈ t.emitted

section

variable [Unicode] {setup : Setup} {s t : Session} {ls more : List Call} {events : List Event}

/-- The pump goes on to its next await, after some more calls. -/
theorem voiced_pumpTo {a b : Talk} {q : Pump}
    (hrun : (talks setup.config.chunker setup.agreement).run ls = some a)
    (hdispatched : ∀ l, ∀ phrase ∈ s.dispatched l, phrase.1 ∈ a.emitted)
    (hmore : (talks setup.config.chunker setup.agreement).runFrom a more = some b)
    (hspeaks : q.Speaks b) (hgrows : a.emitted <+: b.emitted) :
    Voiced setup (ls ++ more) (s.pumpTo setup q) := by
  obtain ⟨pump, recorder, chunks, heq, hpump⟩ := Session.pumpTo_eq setup s q
  rw [heq]
  refine ⟨b, (Machine.run_append_some _).mpr ⟨a, hrun, hmore⟩, ?_, ?_⟩
  · rcases hpump with rfl | ⟨raised, rfl, -⟩
    · exact hspeaks
    · trivial
  · exact fun l phrase hmem => hgrows.subset (hdispatched l phrase hmem)

omit [Unicode] in
/-- A dispatched chunk was emitted, as those before it were. -/
theorem dispatched_submitAll {chunk : PhraseChunk} {translations : Translations} {now : ℚ}
    {emitted : List PhraseChunk} (hchunk : chunk ∈ emitted)
    (h : ∀ l, ∀ phrase ∈ s.dispatched l, phrase.1 ∈ emitted) :
    ∀ l, ∀ phrase ∈ (s.submitAll chunk now translations.items).1.dispatched l,
      phrase.1 ∈ emitted := by
  obtain ⟨hsubmitted, -, -⟩ := Session.submitAll_submits chunk now translations.keys_nodup s
  intro l phrase hmem
  rcases hsubmitted l with ⟨-, hsame⟩ | ⟨w, text, -, -, hnew⟩
  · exact h l phrase (hsame ▸ hmem)
  · rw [hnew, List.mem_append, List.mem_singleton] at hmem
    rcases hmem with hmem | rfl
    · exact h l phrase hmem
    · exact hchunk

theorem voiced_pump {p : Pump} {event : PumpEvent} (hpump : s.pump = .active p)
    (h : Voiced setup ls s) (hstep : s.pumpStep setup p event = some t) :
    Voiced setup (ls ++ pumpCalls s p event) t := by
  obtain ⟨a, hrun, hspeaks, hdispatched⟩ := h
  rw [hpump] at hspeaks
  -- a pump that is over keeps its talk
  have hover : ∀ (u : Session) (raised : Option Raised), pumpCalls s p event = [] →
      (∀ l, ∀ phrase ∈ u.dispatched l, phrase.1 ∈ a.emitted) →
      Voiced setup (ls ++ pumpCalls s p event) { u with pump := .ended raised } := by
    intro u raised hquiet hu
    rw [hquiet, List.append_nil]
    exact ⟨a, hrun, trivial, hu⟩
  cases Session.pumpStep_turn hstep with
  | @stopped hyp audio_at now q hstop hq =>
    obtain ⟨b, hmore, hb, hgrows⟩ := speaks_finish hspeaks hq
    have hcalls : pumpCalls s p (.heard hyp audio_at now) = [.flush] := by
      simp [pumpCalls, hstop]
    rw [hcalls]
    exact voiced_pumpTo hrun hdispatched hmore hb hgrows
  | @heard hyp audio_at now q hstop hq =>
    obtain ⟨b, hmore, hb, hgrows⟩ := speaks_hear audio_at hstop hspeaks hq
    exact voiced_pumpTo (s := { s with last_audio_at := audio_at }) hrun hdispatched hmore hb hgrows
  | ended hq =>
    obtain ⟨b, hmore, hb, hgrows⟩ := speaks_finish hspeaks hq
    exact voiced_pumpTo hrun hdispatched hmore hb hgrows
  | raised | untranslated => exact hover s _ rfl hdispatched
  | @unsubmitted phase chunk rest translations now later raised hpc hall =>
    refine hover _ _ ?_ (dispatched_submitAll (hspeaks.2 chunk (by simp [Pump.upcoming, hpc]))
      hdispatched)
    simp only [pumpCalls, hpc]
    cases phase <;> cases rest <;> simp [hall]
  | @submitted phase chunk rest translations now later q hpc hall hq =>
    obtain ⟨b, hmore, hb, hgrows⟩ := speaks_onward translations now s hspeaks hpc hall hq
    exact voiced_pumpTo hrun (dispatched_submitAll
      (hspeaks.2 chunk (by simp [Pump.upcoming, hpc])) hdispatched) hmore hb hgrows

/-- Every step of a session goes on with its talk. -/
theorem voiced_step {event : Event} (hs : Sound setup s) (h : Voiced setup ls s)
    (hstep : (sessionRuns setup).step s event = some t) :
    Voiced setup (ls ++ calls s event t) t := by
  have hquiet : calls s event t = [] → Voiced setup ls t → Voiced setup (ls ++ calls s event t) t := by
    intro hnone ht
    rw [hnone, List.append_nil]
    exact ht
  have hsame : t.pump = s.pump → t.dispatched = s.dispatched → Voiced setup ls t := by
    intro hpump hdispatched
    unfold Voiced
    rw [hpump, hdispatched]
    exact h
  cases event with
  | main event =>
    refine hquiet rfl ?_
    have hframe := main_frame hs.stage (Session.mainStep_did hstep)
    rcases hframe.pump with hpump | ⟨habsent, hfresh⟩
    · exact hsame hpump hframe.dispatched
    · obtain ⟨a, hrun, hspeaks, hdispatched⟩ := h
      rw [habsent] at hspeaks
      obtain rfl := hspeaks
      refine ⟨_, hrun, ?_, ?_⟩
      · rw [hfresh]
        exact ⟨rfl, by simp [Pump.upcoming]⟩
      · rw [hframe.dispatched]
        exact hdispatched
  | pump event =>
    obtain ⟨p, hpump, hstep⟩ := pump_step hstep
    have hcalls : calls s (.pump event) t = pumpCalls s p event := by
      simp only [calls, hpump]
    rw [hcalls]
    exact voiced_pump hpump h hstep
  | worker language event =>
    obtain ⟨w, hw, hstep⟩ := Option.bind_eq_some_iff.mp hstep
    obtain ⟨w', recorder, drift, rows, rfl, -⟩ := Session.workerStep_worked hstep
    exact hquiet rfl (hsame rfl rfl)
  | watch now =>
    obtain ⟨end_reason, stop, watching, rfl⟩ := watch_step hstep
    exact hquiet rfl (hsame rfl rfl)
  | frame t_audio t_wall =>
    obtain ⟨recorder, heq⟩ := anchorClock_eq s t_audio t_wall
    obtain rfl := (frame_step hstep).trans heq
    exact hquiet rfl (hsame rfl rfl)

/-- Every session is a talk. -/
theorem voiced_of_run (h : (sessionRuns setup).run events = some s) :
    Voiced setup ((sessionRuns setup).history calls events) s := by
  refine (sessionRuns setup).run_induction
    (P := fun events s => Voiced setup ((sessionRuns setup).history calls events) s) ?_ ?_ h
  · exact ⟨_, rfl, rfl, by simp [sessionRuns, Session.entered]⟩
  · intro events s event t hrun ih hstep
    rw [(sessionRuns setup).history_snoc calls hrun hstep]
    exact voiced_step (sound_of_run hrun) ih hstep

/-! ## The publications -/

/-- A step forgets no phrase that was dispatched. -/
theorem dispatched_step {event : Event} (hs : Sound setup s)
    (hstep : (sessionRuns setup).step s event = some t) (l : String) :
    s.dispatched l <+: t.dispatched l := by
  cases step_did hs hstep with
  | main hdid => exact (main_frame hs.stage hdid).dispatched ▸ List.prefix_refl _
  | pump hpump hdid hcancels =>
    cases hdid with
    | rests => exact List.prefix_refl _
    | dispatches hpc hsubmitted =>
      rcases hsubmitted l with ⟨-, hsame⟩ | ⟨w, text, -, -, hnew⟩
      · exact hsame ▸ List.prefix_refl _
      · exact hnew ▸ List.prefix_append _ _
  | worker => exact List.prefix_refl _
  | watch => exact List.prefix_refl _
  | frame => exact List.prefix_refl _

/-- Every publication is of a phrase that was dispatched in its language. -/
theorem published_of_run (h : (sessionRuns setup).run events = some s) :
    ∀ p ∈ (sessionRuns setup).history published events,
      ∃ phrase ∈ s.dispatched p.language, p = phrase.publication p.language p.wall := by
  refine (sessionRuns setup).run_induction (P := fun events s =>
    ∀ p ∈ (sessionRuns setup).history published events,
      ∃ phrase ∈ s.dispatched p.language, p = phrase.publication p.language p.wall) ?_ ?_ h
  · simp
  · intro events s event t hrun ih hstep p hp
    have hs := sound_of_run hrun
    rw [(sessionRuns setup).history_snoc published hrun hstep, List.mem_append] at hp
    rcases hp with hp | hp
    · obtain ⟨phrase, hmem, heq⟩ := ih p hp
      exact ⟨phrase, (dispatched_step hs hstep _).subset hmem, heq⟩
    · unfold published at hp
      split at hp
      case h_2 => simp at hp
      case h_1 language now =>
        split at hp
        case h_2 => simp at hp
        case h_1 phrase speech hpc =>
          rw [List.mem_singleton] at hp
          subst hp
          obtain ⟨w, hw, hpc⟩ := Option.map_eq_some_iff.mp hpc
          obtain ⟨n, hkept, -⟩ := metered_of_run hrun
          obtain ⟨⟨done, hdone, -⟩, -, -⟩ := hkept.tracked language w hw
          have hmem : phrase ∈ s.dispatched language := by
            rw [hdone, pending_of_hand (w := w) (by rw [hpc]; rfl)]
            exact List.mem_append_right _ List.mem_cons_self
          exact ⟨phrase, (dispatched_step hs hstep _).subset hmem, rfl⟩

/-- The chunk of a publication: its number counts the chunks of the talk. -/
theorem published_chunk (h : (sessionRuns setup).run events = some s) {talk : Talk}
    (ht : (talks setup.config.chunker setup.agreement).run
      ((sessionRuns setup).history calls events) = some talk)
    {p : Publication} (hp : p ∈ (sessionRuns setup).history published events) :
    ∃ chunk, talk.emitted[p.chunk_id]? = some chunk ∧ p.t_audio_end = chunk.t_audio_end := by
  obtain ⟨phrase, hmem, heq⟩ := published_of_run h p hp
  obtain ⟨talk', ht', -, hdispatched⟩ := voiced_of_run h
  rw [ht] at ht'
  cases ht'
  obtain ⟨i, hi, hchunk⟩ := List.mem_iff_getElem.mp (hdispatched _ phrase hmem)
  have hids := (talks_booked ht).ids
  have hid : phrase.1.chunk_id = i := by
    have hat : (talk.emitted.map (·.chunk_id))[i]? = (List.range talk.emitted.length)[i]? := by
      rw [hids]
    rw [List.getElem?_map, List.getElem?_eq_getElem hi, List.getElem?_range hi, hchunk] at hat
    exact Option.some.inj hat
  refine ⟨phrase.1, ?_, by rw [heq]; rfl⟩
  rw [heq, Phrase.publication, hid, List.getElem?_eq_getElem hi, hchunk]

end

end lad_translate.pipeline
