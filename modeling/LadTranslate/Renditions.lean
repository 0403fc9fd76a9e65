-- The laws of what a language is given. The pump makes a talk of the hypotheses
-- that it hears, and each chunk of the talk goes, when its translations come, to
-- the languages that they are for. So a language that every answer has is given
-- the words of the whole talk, each once and in order.
import LadTranslate.Dispatch
import LadTranslate.Talks
import LadTranslate.Utterances

open machines

namespace lad_translate.pipeline

open phrase_chunker

/-! ## The words of a talk that ends with a final -/

section

variable [Unicode] {config : ChunkerConfig} {h : 1 ≤ config.agreement_n} {ls : List Call} {t : Talk}
  {hyp : Hypothesis}

omit [Unicode] in
/-- After the newest hypothesis, a history has only ticks and flushes. -/
theorem split_lastFed (hl : lastFed ls = some hyp) :
    ∃ before after, ls = before ++ [.feed hyp] ++ after ∧ after.filterMap Call.fed = [] := by
  induction ls using List.reverseRecOn with
  | nil => cases hl
  | append_singleton ls a ih =>
    cases a with
    | feed newest =>
      rw [lastFed_feed, Option.some.injEq] at hl
      exact ⟨ls, [], by rw [hl, List.append_nil], rfl⟩
    | tick now =>
      have hquiet : lastFed (ls ++ [.tick now]) = lastFed ls := by simp [lastFed, Call.fed]
      obtain ⟨before, after, rfl, hafter⟩ := ih (hquiet ▸ hl)
      exact ⟨before, after ++ [.tick now], by simp, by simp [hafter, Call.fed]⟩
    | flush =>
      have hquiet : lastFed (ls ++ [.flush]) = lastFed ls := by simp [lastFed, Call.fed]
      obtain ⟨before, after, rfl, hafter⟩ := ih (hquiet ▸ hl)
      exact ⟨before, after ++ [.flush], by simp, by simp [hafter, Call.fed]⟩

/-- What is committed by a final stays committed. -/
theorem committed_of_final (hr : (talks config h).run ls = some t) (hl : lastFed ls = some hyp)
    (hf : hyp.is_final = true) : (normalised hyp.text).length ≤ t.chunker.tracker.committed := by
  obtain ⟨before, after, rfl, hafter⟩ := split_lastFed hl
  obtain ⟨s, hs, -⟩ := (talks config h).run_append_some.mp hr
  obtain ⟨_, _, hstep⟩ := (talks config h).run_snoc_some.mp hs
  obtain ⟨out, hcall, -⟩ := talks_step.mp hstep
  have hsays := (calls_say hs (List.prefix_refl _) (by simp [hafter]) hr).1
  exact (feed_final_drains hf hcall).2.trans hsays.committed

/-- A talk whose newest hypothesis is a final spells it, when every hypothesis
starts with what was spoken before it. -/
theorem spoken_of_final (hr : (talks config h).run ls = some t) (hl : lastFed ls = some hyp)
    (hf : hyp.is_final = true) (ha : Agreeing config h ls) : t.spoken = normalised hyp.text := by
  have hfaithful := talks_faithful hr
  have hlatest : t.chunker.tracker.latest = normalised hyp.text := by
    rw [StabilityTracker.latest, (talks_remember hr).surface, hl]
    rfl
  have hstart := hfaithful.spoken (agreeing_is_uncontradicted hr ha)
  rw [hlatest] at hstart
  apply hstart.eq_of_length_le
  rw [Talk.spoken, List.length_map, hfaithful.count]
  exact committed_of_final hr hl hf

end

/-! ## The pump, chunk for chunk -/

/-- The talk of the pump emitted what was sent, and what is to come. -/
def Pump.Tells (p : Pump) (sent : List PhraseChunk) (t : Talk) : Prop :=
  p.chunker = t.chunker ∧ t.emitted = sent ++ p.upcoming

section

variable [Unicode] {config : ChunkerConfig} {h : 1 ≤ config.agreement_n} {t : Talk} {p q : Pump}
  {sent : List PhraseChunk}

omit [Unicode] in
theorem tells_dispatching (phase : Phase) (c : PhraseChunker) (sent chunks : List PhraseChunk)
    {next : PumpPc} (hnext : next = .receiving ∨ next = .returned) :
    (Pump.dispatching phase c chunks next).Tells sent ⟨c, sent ++ chunks⟩ := by
  refine ⟨Pump.dispatching_chunker phase c chunks next, ?_⟩
  rw [Pump.upcoming_dispatching phase c chunks hnext]

theorem tells_ticked (config : ChunkerConfig) (h : 1 ≤ config.agreement_n) {now : ℚ}
    (hq : Pump.ticked t.chunker now = some q) :
    ∃ u, (talks config h).step t (.tick now) = some u ∧ q.Tells t.emitted u := by
  obtain ⟨⟨c, out⟩, htick, rfl⟩ := Option.map_eq_some_iff.mp hq
  exact ⟨_, talks_call htick, tells_dispatching .ticking c t.emitted out (.inl rfl)⟩

theorem tells_hear {hyp : Hypothesis} (audio_at : ℚ) {now : ℚ} {s : Session}
    (hstop : s.stop = false) (hp : p.Tells sent t) (hq : p.hear hyp now = some q) :
    ∃ u, (talks config h).runFrom t (pumpCalls s p (.heard hyp audio_at now)) = some u ∧
      q.Tells sent u := by
  obtain ⟨hchunker, hsent⟩ := hp
  unfold Pump.hear at hq
  unfold pumpCalls
  simp only [hstop, Bool.false_eq_true, if_false]
  split at hq
  case h_2 => cases hq
  case h_1 hpc =>
    rw [Pump.upcoming, hpc, List.append_nil] at hsent
    split at hq
    · cases hq
    · rename_i c hfeed
      rw [hfeed]
      rw [hchunker] at hfeed
      have hstep : (talks config h).step t (.feed hyp) = some ⟨c, t.emitted ++ []⟩ := talks_call hfeed
      rw [List.append_nil, hsent] at hstep
      obtain ⟨u, hu, htells⟩ := tells_ticked config h (t := ⟨c, sent⟩) hq
      exact ⟨u, by simp [Machine.runFrom_cons, hstep, hu], htells⟩
    · rename_i c chunk rest hfeed
      cases hq
      rw [hfeed]
      rw [hchunker] at hfeed
      have hstep : (talks config h).step t (.feed hyp) = some ⟨c, t.emitted ++ chunk :: rest⟩ :=
        talks_call hfeed
      rw [hsent] at hstep
      exact ⟨⟨c, sent ++ chunk :: rest⟩, by simp [Machine.runFrom_cons, hstep], rfl, rfl⟩

theorem tells_finish (hp : p.Tells sent t) (hq : p.finish = some q) :
    ∃ u, (talks config h).runFrom t [.flush] = some u ∧ q.Tells sent u := by
  obtain ⟨hchunker, hsent⟩ := hp
  unfold Pump.finish at hq
  split at hq
  case h_2 => cases hq
  case h_1 hpc =>
    rw [Pump.upcoming, hpc, List.append_nil] at hsent
    rw [hchunker] at hq
    obtain ⟨⟨c, out⟩, hflush, rfl⟩ := Option.map_eq_some_iff.mp hq
    have hstep : (talks config h).step t .flush = some ⟨c, t.emitted ++ out⟩ := talks_call hflush
    rw [hsent] at hstep
    exact ⟨_, by simp [Machine.runFrom_cons, hstep], tells_dispatching .flushing c sent out (.inr rfl)⟩

theorem tells_onward {phase : Phase} {chunk : PhraseChunk} {rest : List PhraseChunk}
    (translations : Translations) (now : ℚ) {later : ℚ} (s : Session) (hp : p.Tells sent t)
    (hpc : p.pc = .translating phase chunk rest)
    (hsubmitted : (s.submitAll chunk now translations.items).2 = none)
    (hq : p.onward later = some q) :
    ∃ u, (talks config h).runFrom t (pumpCalls s p (.translated (.ok translations) now later)) =
      some u ∧ q.Tells (sent ++ [chunk]) u := by
  obtain ⟨hchunker, hsent⟩ := hp
  rw [Pump.upcoming, hpc] at hsent
  unfold Pump.onward at hq
  unfold pumpCalls
  rw [hpc] at hq ⊢
  cases rest with
  | cons next rest =>
    cases hq
    exact ⟨t, by cases phase <;> rfl, hchunker, by rw [hsent]; simp [Pump.upcoming]⟩
  | nil =>
    cases phase with
    | feeding =>
      simp only at hq ⊢
      rw [hchunker] at hq
      obtain ⟨u, hu, htells⟩ := tells_ticked config h hq
      rw [hsent] at htells
      refine ⟨u, ?_, htells⟩
      rw [hsubmitted]
      simp [Machine.runFrom_cons, hu]
    | ticking =>
      cases hq
      exact ⟨t, rfl, hchunker, by rw [hsent]; simp [Pump.upcoming]⟩
    | flushing =>
      cases hq
      exact ⟨t, rfl, hchunker, by rw [hsent]; simp [Pump.upcoming]⟩

end

/-! ## What is given to a language -/

/-- The languages of the translations that a step brings. -/
def answered (_ : Session) (event : Event) (_ : Session) : List (List String) :=
  match event with
  | .pump (.translated (.ok translations) _ _) => [translations.items.map Prod.fst]
  | _ => []

/-- The chunks whose answer has the language. -/
def rendered (chunks : List PhraseChunk) (answers : List (List String)) (language : String) :
    List PhraseChunk :=
  (chunks.zip answers).filterMap fun (chunk, languages) =>
    if language ∈ languages then some chunk else none

theorem rendered_snoc {chunks : List PhraseChunk} {answers : List (List String)}
    (hcount : chunks.length = answers.length) (chunk : PhraseChunk) (languages : List String)
    (l : String) : rendered (chunks ++ [chunk]) (answers ++ [languages]) l =
      rendered chunks answers l ++ (if l ∈ languages then [chunk] else []) := by
  rw [rendered, List.zip_append hcount, List.filterMap_append]
  congr 1
  by_cases hl : l ∈ languages <;> simp [hl]

/-- A language of every answer has every chunk. -/
theorem rendered_all {chunks : List PhraseChunk} {answers : List (List String)} {l : String}
    (hcount : chunks.length = answers.length) (hall : ∀ languages ∈ answers, l ∈ languages) :
    rendered chunks answers l = chunks := by
  have hkeep : ∀ p ∈ chunks.zip answers, (if l ∈ p.2 then some p.1 else none) = some p.1 := by
    intro p hp
    exact if_pos (hall p.2 (List.of_mem_zip hp).2)
  calc
    rendered chunks answers l = (chunks.zip answers).filterMap fun p => some p.1 :=
      List.filterMap_congr hkeep
    _ = (chunks.zip answers).map Prod.fst := congrFun List.filterMap_eq_map' _
    _ = chunks := List.map_fst_zip hcount.le

/-- The pump sent each chunk with its answer. A pump that came to its end has sent
the whole talk. -/
structure Rendered (setup : Setup) (s : Session) (answers : List (List String)) (t : Talk)
    (sent : List PhraseChunk) : Prop where
  count : sent.length = answers.length
  given : ∀ l, (s.dispatched l).map Prod.fst = rendered sent answers l
  absent : s.pump = .absent → t = ⟨.fresh setup.config.chunker setup.agreement, []⟩ ∧ sent = []
  active : ∀ p, s.pump = .active p → p.Tells sent t
  ended : s.pump = .ended none → t.emitted = sent

section

variable {setup : Setup} {s t : Session} {answers : List (List String)} {talk : Talk}
  {sent : List PhraseChunk}

theorem Rendered.of_eq (hr : Rendered setup s answers talk sent) (hpump : t.pump = s.pump)
    (hdispatched : t.dispatched = s.dispatched) : Rendered setup t answers talk sent := by
  obtain ⟨hcount, hgiven, habsent, hactive, hended⟩ := hr
  exact ⟨hcount, hdispatched ▸ hgiven, hpump ▸ habsent, hpump ▸ hactive, hpump ▸ hended⟩

/-- The pump rests at its next await, it has returned, or its dispatch has raised. -/
theorem pumpTo_rests (setup : Setup) (s : Session) (p : Pump) :
    ∃ pump recorder chunks, s.pumpTo setup p = { s with pump, recorder, chunks } ∧
      (pump = .active p ∨ (pump = .ended none ∧ p.pc = .returned) ∨
        ∃ raised, pump = .ended (some raised)) := by
  cases hpc : p.pc with
  | receiving =>
    exact ⟨_, s.recorder, s.chunks, by simp only [Session.pumpTo, hpc], .inl rfl⟩
  | returned =>
    exact ⟨_, s.recorder, s.chunks, by simp only [Session.pumpTo, hpc], .inr (.inl ⟨rfl, rfl⟩)⟩
  | translating phase chunk rest =>
    obtain ⟨recorder, chunks, heq, -⟩ := Session.beginDispatch_raised setup s chunk
    cases hbegun : s.beginDispatch setup chunk with
    | mk s' raised =>
      rw [hbegun] at heq
      simp only at heq
      subst heq
      cases raised with
      | none =>
        exact ⟨_, recorder, chunks, by simp only [Session.pumpTo, hpc, hbegun], .inl rfl⟩
      | some raised =>
        exact ⟨_, recorder, chunks, by simp only [Session.pumpTo, hpc, hbegun],
          .inr (.inr ⟨raised, rfl⟩)⟩

/-- The pump goes on to its next await. -/
theorem rendered_pumpTo {q : Pump} (hcount : sent.length = answers.length)
    (hgiven : ∀ l, (s.dispatched l).map Prod.fst = rendered sent answers l)
    (htells : q.Tells sent talk) : Rendered setup (s.pumpTo setup q) answers talk sent := by
  obtain ⟨pump, recorder, chunks, heq, hpump⟩ := pumpTo_rests setup s q
  rw [heq]
  rcases hpump with rfl | ⟨rfl, hpc⟩ | ⟨raised, rfl⟩
  · refine ⟨hcount, hgiven, fun habsent => (by cases habsent), fun p hactive => ?_,
      fun hended => (by cases hended)⟩
    obtain rfl := PumpTask.active.inj hactive
    exact htells
  · have hsent := htells.2
    rw [Pump.upcoming, hpc, List.append_nil] at hsent
    exact ⟨hcount, hgiven, fun habsent => (by cases habsent), fun _ hactive => (by cases hactive),
      fun _ => hsent⟩
  · exact ⟨hcount, hgiven, fun habsent => (by cases habsent), fun _ hactive => (by cases hactive),
      fun hended => (by cases hended)⟩

/-- When nothing is raised, each language of an answer is given the chunk. -/
theorem dispatched_of_submitted {chunk : PhraseChunk} {now : ℚ} {items : List (String × String)}
    (hnodup : (items.map Prod.fst).Nodup) (hall : (s.submitAll chunk now items).2 = none)
    (l : String) : ((s.submitAll chunk now items).1.dispatched l).map Prod.fst =
      (s.dispatched l).map Prod.fst ++ (if l ∈ items.map Prod.fst then [chunk] else []) := by
  induction items generalizing s with
  | nil => simp [Session.submitAll]
  | cons item items ih =>
    obtain ⟨language, text⟩ := item
    rw [List.map_cons, List.nodup_cons] at hnodup
    unfold Session.submitAll at hall ⊢
    simp only at hall ⊢
    split at hall
    · cases hall
    · rename_i w hw
      rw [ih hnodup.2 hall]
      by_cases hl : l = language
      · subst hl
        simp [Session.submit, hnodup.1]
      · have hkeys : l ∈ List.map Prod.fst ((language, text) :: items) ↔ l ∈ items.map Prod.fst := by
          simp [hl]
        simp only [hkeys]
        simp [Session.submit, hl]

variable [Unicode]

/-- The pump failed, or the calls so far are a talk whose chunks were sent with
these answers. -/
def Recited (setup : Setup) (s : Session) (ls : List Call) (answers : List (List String)) : Prop :=
  (∃ raised, s.pump = .ended (some raised)) ∨
    ∃ talk sent, (talks setup.config.chunker setup.agreement).run ls = some talk ∧
      Rendered setup s answers talk sent

theorem recited_pump {p : Pump} {event : PumpEvent} {ls : List Call} (hpump : s.pump = .active p)
    (hr : Recited setup s ls answers) (hstep : s.pumpStep setup p event = some t) :
    Recited setup t (ls ++ pumpCalls s p event) (answers ++ answered s (.pump event) t) := by
  obtain ⟨raised, hended⟩ | ⟨talk, sent, hrun, hcount, hgiven, -, hactive, -⟩ := hr
  · rw [hended] at hpump
    cases hpump
  have htells := hactive p hpump
  have hgoes : ∀ {more : List Call} {u : Talk},
      (talks setup.config.chunker setup.agreement).runFrom talk more = some u →
      (talks setup.config.chunker setup.agreement).run (ls ++ more) = some u :=
    fun hmore => (Machine.run_append_some _).mpr ⟨talk, hrun, hmore⟩
  have hsame : answers ++ [] = answers := List.append_nil answers
  cases Session.pumpStep_turn hstep with
  | @stopped hyp audio_at now q hstop hq =>
    obtain ⟨u, hmore, hu⟩ := tells_finish htells hq
    have hcalls : pumpCalls s p (.heard hyp audio_at now) = [.flush] := by
      simp [pumpCalls, hstop]
    rw [hcalls]
    exact .inr ⟨u, sent, hgoes hmore, rendered_pumpTo (hsame.symm ▸ hcount) (hsame.symm ▸ hgiven) hu⟩
  | @heard hyp audio_at now q hstop hq =>
    obtain ⟨u, hmore, hu⟩ := tells_hear audio_at hstop htells hq
    exact .inr ⟨u, sent, hgoes hmore, rendered_pumpTo (s := { s with last_audio_at := audio_at })
      (hsame.symm ▸ hcount) (hsame.symm ▸ hgiven) hu⟩
  | ended hq =>
    obtain ⟨u, hmore, hu⟩ := tells_finish htells hq
    exact .inr ⟨u, sent, hgoes hmore, rendered_pumpTo (hsame.symm ▸ hcount) (hsame.symm ▸ hgiven) hu⟩
  | raised | untranslated | unsubmitted => exact .inl ⟨_, rfl⟩
  | @submitted phase chunk rest translations now later q hpc hall hq =>
    obtain ⟨u, hmore, hu⟩ := tells_onward translations now s htells hpc hall hq
    refine .inr ⟨u, sent ++ [chunk], hgoes hmore, rendered_pumpTo ?_ ?_ hu⟩
    · rw [answered, List.length_append, List.length_append, hcount]
      rfl
    · intro l
      rw [dispatched_of_submitted translations.keys_nodup hall, hgiven, answered,
        rendered_snoc hcount]

theorem recited_step {event : Event} {ls : List Call} (hs : Sound setup s)
    (hr : Recited setup s ls answers) (hstep : (sessionRuns setup).step s event = some t) :
    Recited setup t (ls ++ calls s event t) (answers ++ answered s event t) := by
  have hquiet : t.pump = s.pump → t.dispatched = s.dispatched →
      Recited setup t (ls ++ []) (answers ++ []) := by
    intro hpump hdispatched
    rw [List.append_nil, List.append_nil]
    rcases hr with ⟨raised, hended⟩ | ⟨talk, sent, hrun, hrendered⟩
    · exact .inl ⟨raised, hpump.trans hended⟩
    · exact .inr ⟨talk, sent, hrun, hrendered.of_eq hpump hdispatched⟩
  cases event with
  | main event =>
    have hframe := main_frame hs.stage (Session.mainStep_did hstep)
    rcases hframe.pump with hpump | ⟨habsent, hfresh⟩
    · exact hquiet hpump hframe.dispatched
    · obtain ⟨raised, hended⟩ | ⟨talk, sent, hrun, hrendered⟩ := hr
      · rw [habsent] at hended
        cases hended
      · obtain ⟨rfl, rfl⟩ := hrendered.absent habsent
        have hcalls : calls s (.main event) t = [] := rfl
        have hanswered : answered s (.main event) t = [] := rfl
        rw [hcalls, hanswered, List.append_nil, List.append_nil]
        refine .inr ⟨_, [], hrun, hrendered.count, hframe.dispatched ▸ hrendered.given, ?_, ?_, ?_⟩
        · rw [hfresh]
          nofun
        · intro p hp
          rw [hfresh] at hp
          cases hp
          exact ⟨rfl, rfl⟩
        · rw [hfresh]
          nofun
  | pump event =>
    obtain ⟨p, hpump, hstep⟩ := pump_step hstep
    have hcalls : calls s (.pump event) t = pumpCalls s p event := by
      simp only [calls, hpump]
    rw [hcalls]
    exact recited_pump hpump hr hstep
  | worker language event =>
    obtain ⟨w, hw, hstep⟩ := Option.bind_eq_some_iff.mp hstep
    obtain ⟨w', recorder, drift, rows, rfl, -⟩ := Session.workerStep_worked hstep
    exact hquiet rfl rfl
  | watch now =>
    obtain ⟨end_reason, stop, watching, rfl⟩ := watch_step hstep
    exact hquiet rfl rfl
  | frame t_audio t_wall =>
    obtain ⟨recorder, heq⟩ := anchorClock_eq s t_audio t_wall
    obtain rfl := (frame_step hstep).trans heq
    exact hquiet rfl rfl

theorem recited_of_run {events : List Event} (h : (sessionRuns setup).run events = some s) :
    Recited setup s ((sessionRuns setup).history calls events)
      ((sessionRuns setup).history answered events) := by
  refine (sessionRuns setup).run_induction (P := fun events s =>
    Recited setup s ((sessionRuns setup).history calls events)
      ((sessionRuns setup).history answered events)) ?_ ?_ h
  · exact .inr ⟨_, [], rfl, rfl, fun _ => rfl, fun _ => ⟨rfl, rfl⟩,
      fun _ hactive => (by cases hactive), fun hended => (by cases hended)⟩
  · intro events s event t hrun ih hstep
    rw [(sessionRuns setup).history_snoc calls hrun hstep,
      (sessionRuns setup).history_snoc answered hrun hstep]
    exact recited_step (sound_of_run hrun) ih hstep

/-- When the pump came to its end and the room is closed, each worker has taken
the chunks of the talk whose answers have its language, each once and in order,
and has done something with each of them. A worker whose language every answer
has was given each word of a talk that ends with a final, when each hypothesis
starts with the words that were spoken before it. -/
theorem each_language_is_given_the_whole_talk {events : List Event}
    (h : (sessionRuns setup).run events = some s) (hpump : s.pump = .ended none)
    (hclosed : 1 ≤ s.closed) :
    ∃ talk, (talks setup.config.chunker setup.agreement).run
        ((sessionRuns setup).history calls events) = some talk ∧
      ∀ l w, s.workers l = some w →
        w.taken.map Prod.fst = rendered talk.emitted ((sessionRuns setup).history answered events) l ∧
        w.deeds.map (·.text) = w.taken.map Prod.snd ∧
        ((∀ languages ∈ (sessionRuns setup).history answered events, l ∈ languages) →
          w.taken.map Prod.fst = talk.emitted ∧
          ∀ hyp, lastFed ((sessionRuns setup).history calls events) = some hyp →
            hyp.is_final = true →
            Agreeing setup.config.chunker setup.agreement
              ((sessionRuns setup).history calls events) →
            (w.taken.flatMap (·.1.words)).map normaliseToken = normalised hyp.text) := by
  obtain ⟨raised, hended⟩ | ⟨talk, sent, hrun, hcount, hgiven, -, -, hsent⟩ := recited_of_run h
  · rw [hended] at hpump
    cases hpump
  obtain rfl := hsent hpump
  refine ⟨talk, hrun, fun l w hw => ?_⟩
  have htaken : w.taken.map Prod.fst =
      rendered talk.emitted ((sessionRuns setup).history answered events) l := by
    rw [taken_of_home (accounted_of_run h) hw (home_of_closed (sound_of_run h) hclosed hw)]
    exact hgiven l
  refine ⟨htaken, (diligent_of_run h l w hw).texts, fun hall => ?_⟩
  rw [rendered_all hcount hall] at htaken
  refine ⟨htaken, fun hyp hl hf ha => ?_⟩
  have hwords : w.taken.flatMap (·.1.words) = talk.words := by
    rw [Talk.words, ← htaken, List.flatMap_map]
  rw [hwords]
  exact spoken_of_final hrun hl hf ha

end

/-! ## A talk of one line -/

deriving instance DecidableEq for Call

open ascii

theorem spokenTalk_calls : (sessionRuns oneLanguage).history calls spokenTalk =
    [.feed (.spoken "good morning everyone" true 1), .tick 2, .flush] := by
  decide +kernel

/-- The only hypothesis comes first, before a word is spoken. -/
theorem spokenTalk_agrees : Agreeing oneLanguage.config.chunker oneLanguage.agreement
    ((sessionRuns oneLanguage).history calls spokenTalk) := by
  rw [spokenTalk_calls]
  rintro pre hyp post t hsplit hrun
  cases pre with
  | nil =>
    obtain rfl := Option.some.inj hrun
    exact List.nil_prefix
  | cons a pre =>
    obtain ⟨-, hrest⟩ := List.cons.inj hsplit
    cases pre with
    | nil => cases hrest
    | cons b pre =>
      obtain ⟨-, hrest⟩ := List.cons.inj hrest
      cases pre with
      | nil => cases hrest
      | cons c pre => cases pre <;> cases hrest

theorem french_is_given_the_whole_line :
    ∃ s, (sessionRuns oneLanguage).run spokenTalk = some s ∧
      ∀ w, s.workers "fr" = some w →
        (w.taken.flatMap (·.1.words)).map normaliseToken = normalised "good morning everyone" := by
  obtain ⟨s, hrun, hs⟩ := Option.bind_eq_some_iff.mp spokenTalk_evaluated
  split at hs
  · rename_i hpump
    obtain ⟨-, hclosed⟩ := Prod.mk.inj (Option.some.inj hs)
    obtain ⟨talk, -, hlaws⟩ := each_language_is_given_the_whole_talk hrun hpump hclosed.ge
    refine ⟨s, hrun, fun w hw => ?_⟩
    have hanswered : ∀ languages ∈ (sessionRuns oneLanguage).history answered spokenTalk,
        "fr" ∈ languages := by decide +kernel
    exact ((hlaws "fr" w hw).2.2 hanswered).2 (.spoken "good morning everyone" true 1)
      (by rw [spokenTalk_calls]; rfl) rfl spokenTalk_agrees
  · cases hs

end lad_translate.pipeline
