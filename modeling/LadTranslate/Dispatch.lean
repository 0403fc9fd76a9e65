-- The phrases of a session: each worker takes what was dispatched for its
-- language, in that order, each phrase once, and what it does with a phrase
-- hangs on nothing that another language does.
import LadTranslate.Steps

open machines

namespace lad_translate.pipeline

open phrase_chunker config latency drift sessions

/-- The numbers of the chunks dispatched for a language. -/
def Session.ids (s : Session) (language : String) : List Nat :=
  (s.dispatched language).map (·.1.chunk_id)

/-- Every phrase of a language is with its worker, taken or still in the
queue, and the chunks are numbered upwards. -/
structure Accounted (s : Session) : Prop where
  kept : ∀ l w, s.workers l = some w → s.dispatched l = w.taken ++ w.queue.reduceOption
  nobody : ∀ l, s.workers l = none → s.dispatched l = []
  silent : s.pump = .absent → ∀ l, s.dispatched l = []
  upwards : ∀ l, (s.ids l).Pairwise (· < ·)
  coming : ∀ p, s.pump = .active p → ∀ l, p.Numbered (s.ids l)

/-- A worker did something with each phrase that it took, and what it did is
what is decided for the text and the depth. -/
structure Diligent (setup : Setup) (language : String) (w : Worker) : Prop where
  texts : w.deeds.map (·.text) = w.taken.map (·.2)
  actions : ∀ d ∈ w.deeds, d.action = decided setup language d.text d.observed

section

variable {setup : Setup} {s t : Session}

theorem accounted_start (setup : Setup) : Accounted (.entered setup) where
  kept l w hw := by cases hw
  nobody l _ := rfl
  silent _ l := rfl
  upwards l := List.Pairwise.nil
  coming p hp := by cases hp

/-- A move of a worker leaves what it took and what it has before it. -/
theorem Moves.kept {language : String} {w w' : Worker} (hmoves : Moves setup language w w') :
    w'.taken ++ w'.queue.reduceOption = w.taken ++ w.queue.reduceOption := by
  cases hmoves with
  | stops hpc hqueue => simp [hqueue, List.reduceOption_cons_of_none]
  | takes hpc hqueue hleft => simp [hqueue, List.reduceOption_cons_of_some, Worker.take]
  | goesOn hpc hrunning hleft => rfl

/-- A move of a worker adds at most the deed that is decided. -/
theorem Moves.diligent {language : String} {w w' : Worker} (hmoves : Moves setup language w w')
    (h : Diligent setup language w) : Diligent setup language w' := by
  cases hmoves with
  | stops hpc hqueue => exact ⟨h.texts, h.actions⟩
  | takes hpc hqueue hleft =>
    refine ⟨by simp [Worker.take, h.texts], ?_⟩
    intro d hd
    rcases List.mem_append.mp hd with hd | hd
    · exact h.actions d hd
    · rw [List.mem_singleton.mp hd]
  | goesOn hpc hrunning hleft => exact ⟨h.texts, h.actions⟩

theorem accounted_submitted {chunk : PhraseChunk} (h : Accounted s)
    (hsubmitted : Submitted chunk s t) :
    (∀ l w, t.workers l = some w → t.dispatched l = w.taken ++ w.queue.reduceOption) ∧
      ∀ l, t.workers l = none → t.dispatched l = [] := by
  refine ⟨?_, ?_⟩
  · intro l w hw
    rcases hsubmitted l with ⟨hsame, hdispatched⟩ | ⟨v, text, hv, hput, hdispatched⟩
    · rw [hdispatched]
      exact h.kept l w (hsame ▸ hw)
    · rw [hput] at hw
      cases hw
      rw [hdispatched, h.kept l v hv]
      simp [Worker.put, List.reduceOption_append, List.reduceOption_cons_of_some]
  · intro l hnone
    rcases hsubmitted l with ⟨hsame, hdispatched⟩ | ⟨v, text, hv, hput, hdispatched⟩
    · rw [hdispatched]
      exact h.nobody l (hsame ▸ hnone)
    · rw [hput] at hnone
      cases hnone

/-- A step of the pump keeps the account. -/
theorem accounted_pump [Unicode] {p : Pump} {pump : PumpTask} (h : Accounted s)
    (hpump : s.pump = .active p) (hdid : Session.PumpDid s p pump t) : Accounted t := by
  have hnumbered := h.coming p hpump
  obtain ⟨htpump, hexists⟩ := pump_exists hdid
  have hsilent : t.pump = .absent → ∀ l, t.dispatched l = [] :=
    fun habsent => absurd (htpump.symm.trans habsent) hexists
  cases hdid with
  | rests hnext =>
    refine ⟨h.kept, h.nobody, hsilent, h.upwards, ?_⟩
    intro q hq l
    simp only at hq
    rcases hnext with ⟨q', hyp, now, hpump', hheard | hflushed⟩ | ⟨raised, hpump'⟩
    · rw [hpump'] at hq
      cases hq
      exact (hnumbered l).hear hheard
    · rw [hpump'] at hq
      cases hq
      exact (hnumbered l).finish hflushed
    · rw [hpump'] at hq
      cases hq
  | @dispatches recorder chunks workers dispatched phase chunk rest hpc hsubmitted hnext =>
    obtain ⟨hkept, hnobody⟩ := accounted_submitted h hsubmitted
    generalize ht : { s with pump, recorder, chunks, workers, dispatched } = t at *
    -- a language that got nothing has fewer numbers than one that got the chunk
    have hsub : ∀ l, (t.ids l).Sublist (s.ids l ++ [chunk.chunk_id]) := by
      intro l
      unfold Session.ids
      rcases hsubmitted l with ⟨-, hdispatched⟩ | ⟨v, text, hv, hput, hdispatched⟩
      · rw [hdispatched]
        exact List.sublist_append_left _ _
      · rw [hdispatched, List.map_append]
        exact List.Sublist.refl _
    refine ⟨hkept, hnobody, hsilent, ?_, ?_⟩
    · intro l
      have hup := (hnumbered l).upwards
      rw [Pump.upcoming, hpc] at hup
      simp only [List.map_cons] at hup
      rw [List.append_cons] at hup
      exact ((List.pairwise_append.mp hup).1).sublist (hsub l)
    · intro q hq l
      rw [htpump] at hq
      rcases hnext with ⟨q', later, hpump', honward⟩ | ⟨raised, hpump'⟩
      · rw [hpump'] at hq
        cases hq
        exact ((hnumbered l).onward hpc honward).of_sublist (hsub l)
      · rw [hpump'] at hq
        cases hq

/-- To tell a worker to stop puts nothing but the sentinel into its queue. -/
theorem accounted_stopNext (h : Accounted s) (raising : Option Raised) (left : List String) :
    Accounted (s.stopNext raising left) := by
  cases left with
  | nil => exact ⟨h.kept, h.nobody, h.silent, h.upwards, h.coming⟩
  | cons language left =>
    refine ⟨?_, ?_, h.silent, h.upwards, h.coming⟩
    · intro l w hw
      by_cases hl : l = language
      · subst hl
        simp only [Session.stopNext, Function.update_self] at hw
        obtain ⟨v, hv, rfl⟩ := Option.map_eq_some_iff.mp hw
        have hkept := h.kept l v hv
        simpa [Session.stopNext, Worker.put, List.reduceOption_append,
          List.reduceOption_cons_of_none] using hkept
      · exact h.kept l w (by simpa [Session.stopNext, hl] using hw)
    · intro l hnone
      by_cases hl : l = language
      · subst hl
        simp only [Session.stopNext, Function.update_self] at hnone
        exact h.nobody l (Option.map_eq_none_iff.mp hnone)
      · exact h.nobody l (by simpa [Session.stopNext, hl] using hnone)

theorem accounted_wound (h : Accounted s) (raised : Option Raised) :
    Accounted (s.wound setup raised) := by
  obtain ⟨failure, raising, heq, -⟩ := Session.wound_eq setup s raised
  rw [heq]
  have hfields : Accounted { s with watching := false, failure } :=
    ⟨h.kept, h.nobody, h.silent, h.upwards, h.coming⟩
  exact accounted_stopNext hfields raising _

/-- A session whose workers took nothing yet, and whose pump is new. -/
theorem accounted_startPump (h : Accounted s) (hall : ∀ l, s.dispatched l = []) :
    Accounted (s.startPump setup) := by
  refine ⟨h.kept, h.nobody, fun _ => hall, h.upwards, ?_⟩
  intro p hp l
  cases hp
  refine ⟨?_, ?_⟩ <;> simp [Session.ids, Session.startPump, hall l, Pump.upcoming]

theorem accounted_startWorkers (setup : Setup) (h : Accounted s) (hall : ∀ l, s.dispatched l = []) :
    Accounted (s.startWorkers setup) := by
  refine ⟨?_, fun l _ => hall l, fun _ => hall, h.upwards, h.coming⟩
  intro l w hw
  simp only [Session.startWorkers] at hw
  split at hw
  · cases hw
    exact hall l
  · cases hw

/-- A step of `run` keeps the account. -/
theorem accounted_main {event : MainEvent} (h : Accounted s) (hstage : Stage setup s s.main)
    (hdid : MainDid setup s event t) : Accounted t := by
  have hsame : ∀ {main settled}, Accounted { s with main, settled } :=
    ⟨h.kept, h.nobody, h.silent, h.upwards, h.coming⟩
  cases hdid with
  | publishFailed hmain => exact hsame
  | published hmain hstore =>
    rw [hmain] at hstage
    have hnew := accounted_startWorkers setup h (h.silent hstage.1)
    exact ⟨hnew.kept, hnew.nobody, hnew.silent, hnew.upwards, hnew.coming⟩
  | publishedUnstored hmain hstore =>
    rw [hmain] at hstage
    have hall := h.silent hstage.1
    exact accounted_startPump (accounted_startWorkers setup h hall) hall
  | markFailed hmain => exact hsame
  | marked hmain =>
    rw [hmain] at hstage
    exact accounted_startPump h (h.silent hstage.1)
  | raced hmain hpump => exact accounted_wound h _
  | timedOut hmain hpump => exact hsame
  | joined hmain hpump hsuppressed => exact accounted_wound h _
  | stopped hmain hw hpc => exact accounted_stopNext h _ _
  | stopFailed hmain hw hpc => exact hsame
  | closeFailed hmain => exact hsame
  | closedRaising hmain => exact hsame
  | closed hmain =>
    unfold Session.settle
    split <;> exact hsame
  | settled hmain => exact hsame
  | settleFailed hmain => exact hsame

/-- A step of a worker keeps the account. -/
theorem accounted_worker {language : String} {w w' : Worker} {recorder drift rows}
    (h : Accounted s) (hw : s.workers language = some w) (hmoves : Moves setup language w w') :
    Accounted
      { s with workers := Function.update s.workers language (some w'), recorder, drift, rows } := by
  refine ⟨?_, ?_, h.silent, h.upwards, h.coming⟩
  · intro l v hv
    by_cases hl : l = language
    · subst hl
      simp only [Function.update_self, Option.some.injEq] at hv
      subst hv
      rw [hmoves.kept]
      exact h.kept l w hw
    · exact h.kept l v (by simpa [Function.update_of_ne hl] using hv)
  · intro l hnone
    by_cases hl : l = language
    · subst hl
      simp at hnone
    · exact h.nobody l (by simpa [Function.update_of_ne hl] using hnone)

/-- Every step keeps the account. -/
theorem accounted_step [Unicode] {event : Event} (hs : Sound setup s) (h : Accounted s)
    (hstep : (sessionRuns setup).step s event = some t) : Accounted t := by
  cases step_did hs hstep with
  | main hdid => exact accounted_main h hs.stage hdid
  | pump hpump hdid hcancels => exact accounted_pump h hpump hdid
  | worker hw hmoves hdied hcovered => exact accounted_worker h hw hmoves
  | watch => exact ⟨h.kept, h.nobody, h.silent, h.upwards, h.coming⟩
  | frame => exact ⟨h.kept, h.nobody, h.silent, h.upwards, h.coming⟩

/-- Every step keeps the workers diligent. -/
theorem diligent_step [Unicode] {event : Event} (hs : Sound setup s)
    (h : ∀ l w, s.workers l = some w → Diligent setup l w)
    (hstep : (sessionRuns setup).step s event = some t) :
    ∀ l w, t.workers l = some w → Diligent setup l w := by
  intro l w' hw'
  cases step_did hs hstep with
  | main hdid =>
    rcases main_workers hdid hw' with ⟨-, rfl⟩ | ⟨w, hw, rfl | rfl⟩
    · exact ⟨rfl, fun d hd => by cases hd⟩
    · exact h l _ hw
    · exact ⟨(h l w hw).texts, (h l w hw).actions⟩
  | pump hpump hdid hcancels =>
    cases hdid with
    | rests => exact h l w' hw'
    | dispatches hpc hsubmitted =>
      obtain ⟨w, hw, rfl | ⟨phrase, rfl⟩⟩ := submitted_worker hsubmitted hw'
      · exact h l _ hw
      · exact ⟨(h l w hw).texts, (h l w hw).actions⟩
  | @worker language event w v recorder drift rows hw hmoves hdied hcovered =>
    by_cases hl : l = language
    · subst hl
      simp only [Function.update_self, Option.some.injEq] at hw'
      exact hw' ▸ hmoves.diligent (h l w hw)
    · exact h l w' (by simpa [Function.update_of_ne hl] using hw')
  | watch => exact h l w' hw'
  | frame => exact h l w' hw'

end

/-! ## The deeds and what follows them -/

/-- The phrases that a worker took, each with what was noted of it. -/
def Worker.noted (w : Worker) : List (Phrase × Deed) := w.taken.zip w.deeds

def Deed.Speaks (d : Deed) : Prop := ∃ voice, d.action = .synthesised voice

/-- What follows a deed at once: a phrase that is skipped is at most written down,
one that is synthesised is in hand, and any other one is dropped. -/
def Deed.Done (setup : Setup) (language : String) (phrase : Phrase) (s t : Session) (w' : Worker)
    (d : Deed) : Prop :=
  match d.action with
  | .ignored | .failed => w'.pc.inHand = none ∧ t.rows = s.rows
  | .skipped => w'.pc.inHand = none ∧
      t.rows = s.rows ++ if setup.store then [rowOf language phrase none] else []
  | .synthesised _ => w'.pc = .synthesising phrase true ∧ t.rows = s.rows

/-- The worker takes a phrase, notes a deed, and does it. -/
structure Follows (setup : Setup) (language : String) (phrase : Phrase) (s t : Session)
    (w w' : Worker) (d : Deed) : Prop where
  workers : t.workers = Function.update s.workers language (some w')
  taken : w'.taken = w.taken ++ [phrase]
  deeds : w'.deeds = w.deeds ++ [d]
  pushed : w'.pushed = w.pushed
  done : d.Done setup language phrase s t w'

/-- What a worker does is what it noted: what it has in hand is the last phrase
that it took, and was to be spoken; what it pushed is of such phrases; and the
rows of its language are of phrases that were skipped or spoken. -/
structure Enacts (setup : Setup) (s : Session) (language : String) (w : Worker) : Prop where
  paired : w.deeds.length = w.taken.length
  hand : ∀ phrase first, w.pc.inHand = some (phrase, first) →
    ∃ d, w.noted.getLast? = some (phrase, d) ∧ d.Speaks
  pushed : ∀ p ∈ w.pushed, ∃ x ∈ w.noted, x.1.1.chunk_id = p.1 ∧ x.2.Speaks
  rows : ∀ r ∈ s.rows, r.language = language → ∃ x ∈ w.noted, r = rowOf language x.1 r.latency_s ∧
    (x.2.action = .skipped ∧ r.latency_s = none ∨ x.2.Speaks)
  skipped : setup.store = true → ∀ x ∈ w.noted, x.2.action = .skipped →
    rowOf language x.1 none ∈ s.rows

/-- Every worker does what it noted, and a language without a worker has no row. -/
structure Enacted (setup : Setup) (s : Session) : Prop where
  workers : ∀ l w, s.workers l = some w → Enacts setup s l w
  nobody : ∀ l, s.workers l = none → ∀ r ∈ s.rows, r.language ≠ l

section

variable {setup : Setup} {s t : Session} {language : String} {w w' : Worker} {phrase : Phrase}

/-- `_speak` does what it notes. -/
theorem speak_follows (setup : Setup) (s : Session) (language : String) (w : Worker)
    (phrase : Phrase) (rest : List (Option Phrase)) (depth : Except Raised ℚ) :
    ∃ w' d, d.text = phrase.2 ∧
      Follows setup language phrase s (s.speak setup language w phrase rest depth) w w' d := by
  unfold Session.speak
  by_cases hblank : strip phrase.2 = ""
  · rw [if_pos hblank]
    exact ⟨_, _, rfl, rfl, rfl, rfl, rfl, rfl, rfl⟩
  rw [if_neg hblank]
  cases depth with
  | error raised =>
    obtain ⟨pc, heq, hhand⟩ := Session.raising_inHand (w.take phrase rest none .failed) raised
    simp only [heq]
    exact ⟨_, _, rfl, rfl, rfl, rfl, rfl, hhand, rfl⟩
  | ok depth =>
    simp only
    split
    · unfold Session.persist
      split
      · rename_i hstore
        exact ⟨_, _, rfl, rfl, rfl, rfl, rfl, rfl, by rw [if_pos hstore]; rfl⟩
      · rename_i hstore
        exact ⟨_, _, rfl, rfl, rfl, rfl, rfl, rfl, by rw [if_neg hstore]; exact (List.append_nil _).symm⟩
    · cases setup.config.voiceFor language with
      | none => exact ⟨_, _, rfl, rfl, rfl, rfl, rfl, rfl, rfl⟩
      | some voice_id => exact ⟨_, _, rfl, rfl, rfl, rfl, rfl, rfl, rfl⟩

/-- A worker that takes no phrase keeps what it noted. -/
theorem Enacts.keeps (h : Enacts setup s language w) (htaken : w'.taken = w.taken)
    (hdeeds : w'.deeds = w.deeds) (hpushed : w'.pushed = w.pushed)
    (hhand : w'.pc.inHand = none ∨ w'.pc.inHand.map Prod.fst = w.pc.inHand.map Prod.fst)
    (hrows : t.rows = s.rows) : Enacts setup t language w' := by
  have hnoted : w'.noted = w.noted := by rw [Worker.noted, htaken, hdeeds, Worker.noted]
  refine ⟨by rw [htaken, hdeeds, h.paired], ?_, ?_, ?_, ?_⟩
  · intro phrase first hin
    rw [hnoted]
    rcases hhand with hnone | hsame
    · rw [hnone] at hin
      cases hin
    · rw [hin, Option.map_some] at hsame
      obtain ⟨⟨x, b⟩, hx, hfst⟩ := Option.map_eq_some_iff.mp hsame.symm
      cases hfst
      exact h.hand _ b hx
  · rw [hpushed, hnoted]
    exact h.pushed
  · rw [hrows, hnoted]
    exact h.rows
  · rw [hrows, hnoted]
    exact h.skipped

/-- What is in hand after a deed is its phrase, which is to be spoken. -/
theorem Deed.Done.hand {d : Deed} (h : d.Done setup language phrase s t w') {x : Phrase}
    {first : Bool} (hin : w'.pc.inHand = some (x, first)) : x = phrase ∧ d.Speaks := by
  unfold Deed.Done at h
  split at h
  · rw [h.1] at hin
    cases hin
  · rw [h.1] at hin
    cases hin
  · rw [h.1] at hin
    cases hin
  · rename_i voice haction
    rw [h.1] at hin
    cases hin
    exact ⟨rfl, voice, haction⟩

/-- A deed writes down a phrase that is skipped, and no other. -/
theorem Deed.Done.rows {d : Deed} (h : d.Done setup language phrase s t w') :
    ∃ new, t.rows = s.rows ++ new ∧
      (∀ r ∈ new, r = rowOf language phrase none ∧ d.action = .skipped) ∧
      (setup.store = true → d.action = .skipped → rowOf language phrase none ∈ new) := by
  have hnone : t.rows = s.rows → d.action ≠ .skipped → ∃ new, t.rows = s.rows ++ new ∧
      (∀ r ∈ new, r = rowOf language phrase none ∧ d.action = .skipped) ∧
      (setup.store = true → d.action = .skipped → rowOf language phrase none ∈ new) :=
    fun hrows haction => ⟨[], hrows.trans (List.append_nil _).symm, by simp,
      fun _ hskipped => absurd hskipped haction⟩
  unfold Deed.Done at h
  split at h
  · rename_i haction
    exact hnone h.2 (by simp [haction])
  · rename_i haction
    exact hnone h.2 (by simp [haction])
  · rename_i haction
    refine ⟨_, h.2, ?_, ?_⟩
    · intro r hr
      split at hr
      · exact ⟨List.mem_singleton.mp hr, haction⟩
      · cases hr
    · intro hstore _
      rw [if_pos hstore]
      exact List.mem_singleton_self _
  · rename_i haction
    exact hnone h.2 (by simp [haction])

/-- A worker that takes a phrase and does what it notes. -/
theorem Enacts.follows (h : Enacts setup s language w) {d : Deed}
    (hf : Follows setup language phrase s t w w' d) : Enacts setup t language w' := by
  have hnoted : w'.noted = w.noted ++ [(phrase, d)] := by
    rw [Worker.noted, hf.taken, hf.deeds, List.zip_append h.paired.symm, Worker.noted]
    rfl
  have hold : ∀ x ∈ w.noted, x ∈ w'.noted := fun x hx => hnoted ▸ List.mem_append_left _ hx
  have hlast : (phrase, d) ∈ w'.noted := hnoted ▸ List.mem_append_right _ (List.mem_singleton_self _)
  obtain ⟨new, hrows, hnew, hskip⟩ := hf.done.rows
  refine ⟨?_, ?_, ?_, ?_, ?_⟩
  · rw [hf.taken, hf.deeds, List.length_append, List.length_append, h.paired]
    rfl
  · intro x first hin
    obtain ⟨rfl, hspeaks⟩ := hf.done.hand hin
    exact ⟨d, by rw [hnoted, List.getLast?_concat], hspeaks⟩
  · intro p hp
    obtain ⟨x, hx, hid⟩ := h.pushed p (hf.pushed ▸ hp)
    exact ⟨x, hold x hx, hid⟩
  · intro r hr hl
    rw [hrows] at hr
    rcases List.mem_append.mp hr with hr | hr
    · obtain ⟨x, hx, hrow⟩ := h.rows r hr hl
      exact ⟨x, hold x hx, hrow⟩
    · obtain ⟨rfl, haction⟩ := hnew r hr
      exact ⟨_, hlast, rfl, .inl ⟨haction, rfl⟩⟩
  · intro hstore x hx hskipped
    rw [hrows]
    rw [hnoted] at hx
    rcases List.mem_append.mp hx with hx | hx
    · exact List.mem_append_left _ (h.skipped hstore x hx hskipped)
    · obtain rfl := List.mem_singleton.mp hx
      exact List.mem_append_right _ (hskip hstore hskipped)

/-- A worker that writes down the phrase that it has in hand. -/
theorem Enacts.writes (h : Enacts setup s language w) {first : Bool} {latency : Option ℚ}
    (hhand : w.pc.inHand = some (phrase, first)) {pc : WorkerPc} (hpc : pc.inHand = none)
    (hrows : t.rows = s.rows ++ [rowOf language phrase latency]) :
    Enacts setup t language { w with pc } := by
  obtain ⟨d, hlast, hspeaks⟩ := h.hand phrase first hhand
  refine ⟨h.paired, ?_, h.pushed, ?_, ?_⟩
  · intro x b hin
    rw [hpc] at hin
    cases hin
  · intro r hr hl
    rw [hrows] at hr
    rcases List.mem_append.mp hr with hr | hr
    · exact h.rows r hr hl
    · rw [List.mem_singleton.mp hr]
      exact ⟨_, List.mem_of_getLast? hlast, rfl, .inr hspeaks⟩
  · intro hstore x hx hskipped
    rw [hrows]
    exact List.mem_append_left _ (h.skipped hstore x hx hskipped)

/-- A block of the phrase in hand is pushed. -/
theorem Enacts.pushes (h : Enacts setup s language w) {first : Bool} {speech : SpeechChunk}
    (hpc : w.pc = .pushing phrase first speech) (hrows : t.rows = s.rows) :
    Enacts setup t language { w with
      pc := .synthesising phrase false
      pushed := w.pushed ++ [(phrase.1.chunk_id, speech)] } := by
  have hin : w.pc.inHand = some (phrase, first) := by rw [hpc]; rfl
  obtain ⟨d, hlast, hspeaks⟩ := h.hand phrase first hin
  refine ⟨h.paired, ?_, ?_, hrows ▸ h.rows, hrows ▸ h.skipped⟩
  · intro x b hx
    cases hx
    exact ⟨d, hlast, hspeaks⟩
  · intro p hp
    rcases List.mem_append.mp hp with hp | hp
    · exact h.pushed p hp
    · rw [List.mem_singleton.mp hp]
      exact ⟨_, List.mem_of_getLast? hlast, rfl, hspeaks⟩

/-- The rows of another language are none of the worker's. -/
theorem Enacts.beside (h : Enacts setup s language w) {new : List TranscriptRow}
    (hrows : t.rows = s.rows ++ new) (hnew : ∀ r ∈ new, r.language ≠ language) :
    Enacts setup t language w := by
  refine ⟨h.paired, h.hand, h.pushed, ?_, ?_⟩
  · intro r hr hl
    rw [hrows] at hr
    rcases List.mem_append.mp hr with hr | hr
    · exact h.rows r hr hl
    · exact absurd hl (hnew r hr)
  · intro hstore x hx hskipped
    rw [hrows]
    exact List.mem_append_left _ (h.skipped hstore x hx hskipped)

theorem Enacted.worker (h : Enacted setup s) {new : List TranscriptRow}
    (hworkers : t.workers = Function.update s.workers language (some w'))
    (hrows : t.rows = s.rows ++ new) (hnew : ∀ r ∈ new, r.language = language)
    (hw' : Enacts setup t language w') : Enacted setup t := by
  refine ⟨fun l v hv => ?_, fun l hl r hr => ?_⟩
  · rw [hworkers] at hv
    by_cases hl : l = language
    · subst hl
      rw [Function.update_self, Option.some.injEq] at hv
      exact hv ▸ hw'
    · rw [Function.update_of_ne hl] at hv
      exact (h.workers l v hv).beside hrows fun r hr heq => hl (heq.symm.trans (hnew r hr))
  · rw [hworkers] at hl
    by_cases heq : l = language
    · subst heq
      rw [Function.update_self] at hl
      cases hl
    · rw [Function.update_of_ne heq] at hl
      rw [hrows] at hr
      rcases List.mem_append.mp hr with hr | hr
      · exact h.nobody l hl r hr
      · exact fun hrl => heq (hrl.symm.trans (hnew r hr))

/-- Every step of a worker does what was noted. -/
theorem enacted_worker {event : WorkerEvent} (h : Enacted setup s) (hw : s.workers language = some w)
    (hturn : Session.WorkerTurn setup s language w event t) : Enacted setup t := by
  have henacts := h.workers language w hw
  -- a step that writes nothing down
  have hquiet : ∀ w', t.workers = Function.update s.workers language (some w') → t.rows = s.rows →
      Enacts setup t language w' → Enacted setup t := fun w' hworkers hrows hw' =>
    h.worker hworkers (hrows.trans (List.append_nil _).symm) (fun r hr => by cases hr) hw'
  cases hturn with
  | stopped hpc hqueue =>
    exact hquiet _ rfl rfl (henacts.keeps rfl rfl rfl (.inl rfl) rfl)
  | @spoke depth phrase rest hpc hqueue =>
    obtain ⟨w', d, -, hf⟩ := speak_follows setup s language w phrase rest depth
    obtain ⟨new, hrows, hnew, -⟩ := hf.done.rows
    refine h.worker hf.workers hrows ?_ (henacts.follows hf)
    intro r hr
    rw [(hnew r hr).1]
    rfl
  | @unheard phrase first raised hpc =>
    obtain ⟨pc, heq, hhand⟩ := Session.raising_inHand w raised
    rw [heq] at hquiet ⊢
    exact hquiet _ rfl rfl (henacts.keeps rfl rfl rfl (.inl hhand) rfl)
  | @ended phrase first hpc =>
    have hhand : w.pc.inHand = some (phrase, first) := by rw [hpc]; rfl
    unfold Session.persist at hquiet ⊢
    split
    · refine h.worker (t := { s.setWorker language { w with pc := .recording } with rows := _ }) rfl rfl
        ?_ (henacts.writes hhand rfl rfl)
      intro r hr
      rw [List.mem_singleton.mp hr]
    · rename_i hstore
      rw [if_neg hstore] at hquiet
      exact hquiet _ rfl rfl (henacts.keeps rfl rfl rfl (.inl rfl) rfl)
  | heard hpc => exact hquiet _ rfl rfl (henacts.keeps rfl rfl rfl (.inr (by rw [hpc]; rfl)) rfl)
  | @unpushed phrase first speech raised hpc =>
    obtain ⟨pc, heq, hhand⟩ := Session.raising_inHand w raised
    rw [heq] at hquiet ⊢
    exact hquiet _ rfl rfl (henacts.keeps rfl rfl rfl (.inl hhand) rfl)
  | pushed hpc => exact hquiet _ rfl rfl (henacts.pushes hpc rfl)
  | recorded hpc hraised => exact hquiet _ rfl rfl (henacts.keeps rfl rfl rfl (.inl rfl) rfl)
  | cut hpc => exact hquiet _ rfl rfl (henacts.keeps rfl rfl rfl (.inl rfl) rfl)

theorem enacted_start (setup : Setup) : Enacted setup (.entered setup) :=
  ⟨fun l w hw => (by cases hw), fun l hl r hr => (by cases hr)⟩

/-- A queue that grew, or a worker that is new, is nothing that was done. -/
theorem Enacted.queues (h : Enacted setup s) (hrows : t.rows = s.rows)
    (hkept : ∀ l w, s.workers l = some w → ∃ queue, t.workers l = some { w with queue })
    (hfresh : ∀ l w, s.workers l = none → t.workers l = some w → w = .fresh) : Enacted setup t := by
  refine ⟨fun l v hv => ?_, fun l hl r hr => ?_⟩
  · cases hw : s.workers l with
    | none =>
      obtain rfl := hfresh l v hw hv
      have hnone := h.nobody l hw
      refine ⟨rfl, ?_, ?_, ?_, ?_⟩
      · intro phrase first hin
        cases hin
      · intro p hp
        cases hp
      · exact fun r hr hl => absurd hl (hnone r (hrows ▸ hr))
      · intro hstore x hx
        cases hx
    | some w =>
      obtain ⟨queue, hqueue⟩ := hkept l w hw
      rw [hqueue, Option.some.injEq] at hv
      exact hv ▸ (h.workers l w hw).keeps rfl rfl rfl (.inr rfl) hrows
  · rw [hrows] at hr
    apply h.nobody l ?_ r hr
    cases hw : s.workers l with
    | none => rfl
    | some w =>
      obtain ⟨queue, hqueue⟩ := hkept l w hw
      rw [hqueue] at hl
      cases hl

theorem Enacted.idles (h : Enacted setup s) (hrows : t.rows = s.rows) (hworkers : t.workers = s.workers) :
    Enacted setup t := by
  refine h.queues hrows (fun l w hw => ⟨w.queue, by rw [hworkers, hw]⟩) fun l w hw hw' => ?_
  rw [hworkers, hw] at hw'
  cases hw'

theorem enacted_step [Unicode] {event : Event} (hs : Sound setup s) (h : Enacted setup s)
    (hstep : (sessionRuns setup).step s event = some t) : Enacted setup t := by
  cases event with
  | worker language event =>
    obtain ⟨w, hw, hstep⟩ := Option.bind_eq_some_iff.mp hstep
    exact enacted_worker h hw (Session.workerStep_turn hstep)
  | main event =>
    have hdid := Session.mainStep_did hstep
    have hframe := main_frame hs.stage hdid
    refine h.queues hframe.rows (fun l w hw => ?_) fun l w hw hw' => ?_
    · rcases hframe.workers l w hw with hsame | hput
      · exact ⟨w.queue, hsame⟩
      · exact ⟨_, hput⟩
    · rcases main_workers hdid hw' with ⟨-, rfl⟩ | ⟨v, hv, -⟩
      · rfl
      · rw [hw] at hv
        cases hv
  | pump event =>
    obtain ⟨p, hpump, hstep⟩ := pump_step hstep
    obtain ⟨pump, hdid, -⟩ := Session.pumpStep_did hstep
    cases hdid with
    | rests => exact h.idles rfl rfl
    | dispatches hpc hsubmitted =>
      refine h.queues rfl (fun l w hw => ?_) fun l w hw hw' => ?_
      · rcases hsubmitted l with ⟨hsame, -⟩ | ⟨v, text, hv, hput, -⟩
        · exact ⟨w.queue, hsame.trans hw⟩
        · rw [hw] at hv
          cases hv
          exact ⟨_, hput⟩
      · obtain ⟨v, hv, -⟩ := submitted_worker hsubmitted hw'
        rw [hw] at hv
        cases hv
  | watch now =>
    obtain ⟨end_reason, stop, watching, rfl⟩ := watch_step hstep
    exact h.idles rfl rfl
  | frame t_audio t_wall =>
    rw [frame_step hstep]
    obtain ⟨recorder, heq⟩ := anchorClock_eq s t_audio t_wall
    rw [heq]
    exact h.idles rfl rfl

end

/-! ## The runs -/

section

variable [Unicode] {setup : Setup} {s : Session} {events : List Event}

theorem accounted_of_run (h : (sessionRuns setup).run events = some s) : Accounted s :=
  ((sessionRuns setup).invariant (P := fun s => Sound setup s ∧ Accounted s)
    ⟨sound_start setup, accounted_start setup⟩
    (fun _ _ _ hs h => ⟨sound_step hs.1 h, accounted_step hs.1 hs.2 h⟩) ⟨events, h⟩).2

theorem diligent_of_run (h : (sessionRuns setup).run events = some s) :
    ∀ l w, s.workers l = some w → Diligent setup l w :=
  ((sessionRuns setup).invariant
    (P := fun s => Sound setup s ∧ ∀ l w, s.workers l = some w → Diligent setup l w)
    ⟨sound_start setup, fun l w hw => by cases hw⟩
    (fun _ _ _ hs h => ⟨sound_step hs.1 h, diligent_step hs.1 hs.2 h⟩) ⟨events, h⟩).2

theorem enacted_of_run (h : (sessionRuns setup).run events = some s) : Enacted setup s :=
  ((sessionRuns setup).invariant (P := fun s => Sound setup s ∧ Enacted setup s)
    ⟨sound_start setup, enacted_start setup⟩
    (fun _ _ _ hs h => ⟨sound_step hs.1 h, enacted_step hs.1 hs.2 h⟩) ⟨events, h⟩).2

omit [Unicode] in
/-- A worker that is home has taken everything. -/
theorem taken_of_home {language : String} {w : Worker} (h : Accounted s)
    (hw : s.workers language = some w) (hhome : Home w) : w.taken = s.dispatched language := by
  rw [h.kept language w hw, hhome.2]
  simp

omit [Unicode] in
/-- The room is closed only when every worker is home. -/
theorem home_of_closed (hs : Sound setup s) (hclosed : 1 ≤ s.closed) {language : String} {w : Worker}
    (hw : s.workers language = some w) : Home w := by
  have htidy : Tidy setup s := by
    have hstage := hs.stage
    have hnot : ¬ Untidy s := fun h => by rw [h.1] at hclosed; omega
    cases hmain : s.main with
    | publishing => rw [hmain] at hstage; exact absurd hstage.2.2 hnot
    | marking => rw [hmain] at hstage; exact absurd hstage.2.2 hnot
    | racing => rw [hmain] at hstage; exact absurd hstage.2.2 hnot
    | cancelling => rw [hmain] at hstage; exact absurd hstage.2.2 hnot
    | stopping left raising => rw [hmain] at hstage; exact absurd hstage.2.2 hnot
    | closing raising => rw [hmain] at hstage; exact hstage.1
    | settling => rw [hmain] at hstage; exact hstage.1
    | finished result =>
      rw [hmain] at hstage
      rcases hstage with h | h | h
      · exact absurd h.2 hnot
      · exact absurd h.2.2 hnot
      · exact h.1
  obtain ⟨v, hv, hhome⟩ := htidy.2.1 language (hs.languages language w hw)
  rw [hw] at hv
  cases hv
  exact hhome

omit [Unicode] in
/-- A pump that returned, and a run that is over without closing the room:
a worker was cancelled by a call of its own. -/
theorem died_of_unclosed (hs : Sound setup s) {result : Except Raised SessionOutcome}
    (hmain : s.main = .finished result) (hpump : s.pump ≠ .absent) (hclosed : s.closed = 0) :
    ∃ l w, s.workers l = some w ∧ w.pc = .died := by
  have hstage := hs.stage
  rw [hmain] at hstage
  rcases hstage with h | h | h
  · exact absurd h.1 hpump
  · exact h.2.1
  · have hone := h.1.2.2
    omega

/-- For every schedule and every pattern of failures: what a worker took is a
prefix of what was dispatched for its language, each phrase once and in
order. `_shutdown` closes the room only when everything dispatched was taken,
and it gets there unless a call cancelled a worker. What a worker notes of a
phrase that it takes is what it does then: what it speaks, pushes and writes down
is of phrases with such a note. And the note is the same in every run that gives
the worker the same text and depth. -/
theorem each_language_takes_its_phrases_in_order (setup : Setup)
    (h : (sessionRuns setup).run events = some s) :
    (∀ l w, s.workers l = some w →
      w.taken <+: s.dispatched l ∧ (w.taken.map (·.1.chunk_id)).Pairwise (· < ·)) ∧
    (1 ≤ s.closed → ∀ l w, s.workers l = some w → w.taken = s.dispatched l) ∧
    (∀ result, s.main = .finished result → s.pump = .ended none → s.closed = 0 →
      ∃ l w, s.workers l = some w ∧ w.pc = .died) ∧
    (∀ l w, s.workers l = some w → Enacts setup s l w) ∧
    (∀ l w depth phrase rest t, s.workers l = some w → w.pc = .getting →
      w.queue = some phrase :: rest →
      (sessionRuns setup).step s (.worker l (.took depth)) = some t →
      ∃ w' d, d.text = phrase.2 ∧ Follows setup l phrase s t w w' d) ∧
    (∀ events' s', (sessionRuns setup).run events' = some s' →
      ∀ l w w', s.workers l = some w → s'.workers l = some w' →
        w.deeds.map (·.text) = w.taken.map (·.2) ∧
        ∀ d ∈ w.deeds, ∀ d' ∈ w'.deeds, d.text = d'.text → d.observed = d'.observed →
          d.action = d'.action) := by
  have hs := sound_of_run h
  have haccounted := accounted_of_run h
  refine ⟨fun l w hw => ?_, fun hclosed l w hw => ?_, fun result hmain hpump hclosed => ?_,
    (enacted_of_run h).workers, ?_, fun events' s' h' l w w' hw hw' => ?_⟩
  · have htaken : w.taken <+: s.dispatched l := ⟨_, (haccounted.kept l w hw).symm⟩
    refine ⟨htaken, ?_⟩
    exact (haccounted.upwards l).sublist (htaken.sublist.map _)
  · exact taken_of_home haccounted hw (home_of_closed hs hclosed hw)
  · exact died_of_unclosed hs hmain (by simp [hpump]) hclosed
  · intro l w depth phrase rest t hw hpc hqueue hstep
    obtain ⟨v, hv, hstep⟩ := Option.bind_eq_some_iff.mp hstep
    rw [hw] at hv
    cases hv
    cases Session.workerStep_turn hstep with
    | stopped _ hstops =>
      rw [hqueue] at hstops
      cases hstops
    | spoke _ hspoke =>
      rw [hqueue] at hspoke
      cases hspoke
      exact speak_follows setup s l w phrase rest depth
  · have hdiligent := diligent_of_run h l w hw
    refine ⟨hdiligent.texts, ?_⟩
    intro d hd d' hd' htext hobserved
    rw [hdiligent.actions d hd, (diligent_of_run h' l w' hw').actions d' hd', htext, hobserved]

end

open ascii

/-- The setup of a session with one language, and the defaults for the rest. -/
def oneLanguage : Setup where
  config := .keynote
  agreement := by decide
  store := true
  drift_policy := none
  drift_policies := fun _ => none
  started_at := 0

/-- One phrase is spoken, translated, and taken by its worker. -/
def shortTalk : List Event :=
  [.main (.published none), .main (.markedLive none), .frame 0 0,
    .pump (.heard (.spoken "good morning everyone" true 1) 1 1),
    .pump (.translated (.ok ⟨[("fr", "bonjour")], by simp⟩) 2 2), .worker "fr" (.took (.ok 0))]

theorem shortTalk_evaluated : (((sessionRuns oneLanguage).run shortTalk).bind fun s =>
    (s.workers "fr").map fun w => w.taken.map (·.2)) = some ["bonjour"] := by
  decide +kernel

theorem each_language_takes_its_phrases_in_order_in_a_short_talk :
    ∃ s w, (sessionRuns oneLanguage).run shortTalk = some s ∧ s.workers "fr" = some w ∧
      w.taken.map (·.2) = ["bonjour"] ∧ w.taken <+: s.dispatched "fr" ∧
      Enacts oneLanguage s "fr" w := by
  obtain ⟨s, hrun, hworker⟩ := Option.bind_eq_some_iff.mp shortTalk_evaluated
  obtain ⟨w, hw, htaken⟩ := Option.map_eq_some_iff.mp hworker
  obtain ⟨htaking, -, -, henacts, -⟩ := each_language_takes_its_phrases_in_order oneLanguage hrun
  exact ⟨s, w, hrun, hw, htaken, (htaking "fr" w hw).1, henacts "fr" w hw⟩

end lad_translate.pipeline
