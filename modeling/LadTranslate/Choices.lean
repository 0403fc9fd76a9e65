-- What the listener's page keeps, whatever the order of the taps and of the
-- answers: one room, the track of the language last chosen, and no listener that
-- is forgotten. The page keeps all of it as long as no tap and no answer finds
-- the globals of another choice.
import LadTranslate.JoinPage

open machines

namespace lad_translate.join_page

open api (LanguageEntry SessionInfo ListenerPass)

/-- The room is connected, or on its way. -/
def Joining.IsOpen (j : Joining) : Prop := j.link = .connecting ∨ j.link = .connected

namespace Page

variable {beacon : Bool} {s t : Page} {i : Nat} {f : Joining → Joining}

/-! ## The condition -/

/-- `leave` tells the server about this listener. -/
def Tells (beacon : Bool) (s : Page) (id : String) : Prop :=
  id ≠ "" ∧ s.resolvedSession ≠ "" ∧ beacon = true

/-- A language is chosen, and `retry` is tapped, only while no listener is held.
A grant comes only for the newest request. `change` is tapped only where the
server is told about the listener that is held. -/
def InOrder (beacon : Bool) (s : Page) : Event → Prop
  | .choose _ | .retry => s.listenerId = none
  | .granted i _ => i + 1 = s.joins.length
  | .change =>
    match s.listenerId with
    | none => True
    | some id => s.Tells beacon id
  | _ => True

instance (beacon : Bool) (s : Page) (id : String) : Decidable (s.Tells beacon id) :=
  inferInstanceAs (Decidable (_ ∧ _))

instance (beacon : Bool) (s : Page) : (e : Event) → Decidable (s.InOrder beacon e)
  | .choose _ | .retry => inferInstanceAs (Decidable (s.listenerId = none))
  | .granted i _ => inferInstanceAs (Decidable (i + 1 = s.joins.length))
  | .change =>
    match h : s.listenerId with
    | none => isTrue (by simp only [InOrder, h])
    | some id =>
      if hid : s.Tells beacon id then isTrue (by simpa only [InOrder, h] using hid)
      else isFalse (by simpa only [InOrder, h] using hid)
  | .loaded _ | .loadFailed | .refused _ | .connected _ _ | .connectFailed _ | .audioStarted _
  | .timeout | .trackPublished _ _ | .trackSubscribed _ _ | .reconnected _ | .dropped _ =>
    inferInstanceAs (Decidable True)

/-! ## What is kept -/

/-- The request of the page's room: the last one, answered, and the globals are
the ones that its answer set. -/
structure Current (joins : List Joining) (listenerId wantedTrack : Option String) (i : Nat)
    (j : Joining) (pass : ListenerPass) : Prop where
  last : i + 1 = joins.length
  found : joins[i]? = some j
  answered : j.progress ≠ .requested
  granted : j.pass = some pass
  held : listenerId = some pass.listener_id
  wanted : wantedTrack = some pass.track_name
  subscribed : ∀ name ∈ j.subscribed, name = pass.track_name

structure Good (s : Page) : Prop where
  opened : ∀ i j, s.joins[i]? = some j → j.IsOpen → s.room = some i
  current : ∀ i, s.room = some i → ∃ j pass, Current s.joins s.listenerId s.wantedTrack i j pass
  held : s.room = none → s.listenerId = none
  reported : ∀ id ∈ s.granted, s.listenerId = some id ∨ id ∈ s.left
  chosen : ∀ i j, s.joins[i]? = some j → i + 1 = s.joins.length → s.nowLanguage = some j.language

/-- What happens to a request neither opens its room nor changes what it is for,
and asks for no track but the wanted one. -/
structure Milder (s : Page) (j j' : Joining) : Prop where
  language : j'.language = j.language
  pass : j'.pass = j.pass
  isOpen : j'.IsOpen → j.IsOpen
  progress : j'.progress = .requested → j.progress = .requested
  subscribed : ∀ name ∈ j'.subscribed, name ∈ j.subscribed ∨ s.wantedTrack = some name

theorem none_open {j : Joining} (hs : Good s) (hroom : s.room = none) (hj : s.joins[i]? = some j) :
    ¬ j.IsOpen := by
  intro hopen
  have hopened := hs.opened i j hj hopen
  rw [hroom] at hopened
  cases hopened

theorem no_room (hs : Good s) (hheld : s.listenerId = none) : s.room = none := by
  cases hroom : s.room with
  | none => rfl
  | some i =>
    obtain ⟨j, pass, hcurrent⟩ := hs.current i hroom
    rw [hcurrent.held] at hheld
    cases hheld

theorem update_joins {k : Nat} {j' : Joining} (h : (s.update i f).joins[k]? = some j') :
    ∃ j, s.joins[k]? = some j ∧ j' = if i = k then f j else j := by
  rw [update, List.getElem?_modify] at h
  obtain ⟨j, hj, rfl⟩ := Option.map_eq_some_iff.mp h
  exact ⟨j, hj, rfl⟩

theorem good_update (hs : Good s) (hf : ∀ j, s.joins[i]? = some j → s.Milder j (f j)) :
    Good (s.update i f) := by
  have hmilder : ∀ k j, s.joins[k]? = some j → s.Milder j (if i = k then f j else j) := by
    intro k j hj
    split
    · rename_i hsame
      subst hsame
      exact hf j hj
    · exact ⟨rfl, rfl, id, id, fun _ h => .inl h⟩
  refine ⟨?_, ?_, hs.held, hs.reported, ?_⟩
  · intro k j' hj' hopen
    obtain ⟨j, hj, rfl⟩ := update_joins hj'
    exact hs.opened k j hj ((hmilder k j hj).isOpen hopen)
  · intro k hroom
    obtain ⟨j, pass, hcurrent⟩ := hs.current k hroom
    have hk := hmilder k j hcurrent.found
    refine ⟨if i = k then f j else j, pass, ?_, ?_, fun h => hcurrent.answered (hk.progress h),
      hk.pass.trans hcurrent.granted, hcurrent.held, hcurrent.wanted, ?_⟩
    · rw [update, List.length_modify]
      exact hcurrent.last
    · rw [update, List.getElem?_modify, hcurrent.found]
      rfl
    · intro name hname
      rcases hk.subscribed name hname with hold | hwanted
      · exact hcurrent.subscribed name hold
      · rw [hcurrent.wanted] at hwanted
        exact (Option.some.inj hwanted).symm
  · intro k j' hj' hlast
    obtain ⟨j, hj, rfl⟩ := update_joins hj'
    rw [(hmilder k j hj).language]
    rw [update, List.length_modify] at hlast
    exact hs.chosen k j hj hlast

theorem good_showSection (hs : Good s) (view : View) : Good (s.showSection view) :=
  ⟨hs.opened, hs.current, hs.held, hs.reported, hs.chosen⟩

theorem milder_close (j : Joining) : s.Milder j j.close := by
  refine ⟨rfl, rfl, ?_, id, fun _ h => (by cases h)⟩
  rintro (h | h) <;> cases h

theorem milder_settle (j : Joining) : s.Milder j j.settle :=
  ⟨rfl, rfl, id, fun h => (by cases h), fun _ h => .inl h⟩

theorem milder_subscribe (j : Joining) : s.Milder j (j.subscribe s.wantedTrack) := by
  unfold Joining.subscribe
  split
  · refine ⟨rfl, rfl, id, id, fun name h => ?_⟩
    rcases List.mem_append.mp h with hold | hnew
    · exact .inl hold
    · have hname := (List.mem_filter.mp hnew).2
      rw [decide_eq_true_eq] at hname
      exact .inr hname.1.symm
  · exact ⟨rfl, rfl, id, id, fun _ h => .inl h⟩

theorem good_subscribeToWanted (hs : Good s) : Good s.subscribeToWanted := by
  unfold subscribeToWanted
  split
  · exact hs
  · exact good_update hs fun j _ => milder_subscribe j

/-! ## The taps -/

/-- Once the listener that is held is told about, nothing of it is left to keep. -/
theorem good_disconnect (hs : Good s)
    (hleft : ∀ id, s.listenerId = some id → id ∈ s.granted → id ∈ s.left) : Good s.disconnect := by
  have hreported : ∀ id ∈ s.granted, id ∈ s.left := by
    intro id hid
    rcases hs.reported id hid with hheld | hleft'
    · exact hleft id hheld hid
    · exact hleft'
  unfold disconnect closeRoom
  cases hroom : s.room with
  | none =>
    simp only
    refine ⟨?_, ?_, fun _ => rfl, fun id hid => .inr (hreported id hid), hs.chosen⟩
    · exact fun i j hj hopen => absurd hopen (none_open hs hroom hj)
    · intro i hi
      rw [hroom] at hi
      cases hi
  | some r =>
    simp only
    have hclosed := good_update hs fun j (_ : s.joins[r]? = some j) => milder_close j
    refine ⟨?_, fun i hi => (by cases hi), fun _ => rfl, fun id hid => .inr (hreported id hid),
      hclosed.chosen⟩
    intro i j' hj' hopen
    obtain ⟨j, hj, rfl⟩ := update_joins hj'
    split at hopen
    · rcases hopen with h | h <;> cases h
    · rename_i hne
      have hopened := hs.opened i j hj hopen
      rw [hroom] at hopened
      exact absurd (Option.some.inj hopened) hne

theorem leave_none (hheld : s.listenerId = none) : s.leave beacon = s := by
  unfold leave
  rw [hheld]

theorem leave_some {id : String} (hheld : s.listenerId = some id) (htells : s.Tells beacon id) :
    s.leave beacon = { s with left := s.left ++ [id] } := by
  obtain ⟨hid, hsession, hbeacon⟩ := htells
  unfold leave
  rw [hheld]
  simp [hid, hsession, hbeacon]

theorem good_change (hs : Good s) (htells : s.InOrder beacon .change) :
    Good (s.leave beacon).disconnect := by
  cases hheld : s.listenerId with
  | none =>
    rw [leave_none hheld]
    exact good_disconnect hs fun id h => by rw [hheld] at h; cases h
  | some id =>
    simp only [InOrder, hheld] at htells
    rw [leave_some hheld htells]
    refine good_disconnect ⟨hs.opened, hs.current, hs.held, ?_, hs.chosen⟩ ?_
    · exact fun id' hid' => (hs.reported id' hid').imp_right (List.mem_append_left _)
    · intro id' hid' _
      rw [hheld] at hid'
      cases hid'
      exact List.mem_append_right _ (List.mem_singleton_self _)

theorem good_choose {lang : LanguageEntry} (hs : Good s) (hheld : s.listenerId = none) :
    Good { s.showSection .playing with
      nowLanguage := lang, joins := s.joins ++ [{ language := lang }] } := by
  have hroom := no_room hs hheld
  have hnew : ∀ i j, (s.joins ++ [{ language := lang }])[i]? = some j →
      s.joins[i]? = some j ∨ i = s.joins.length ∧ j = { language := lang } := by
    intro i j hj
    rcases Nat.lt_or_ge i s.joins.length with hlt | hge
    · rw [List.getElem?_append_left hlt] at hj
      exact .inl hj
    · rw [List.getElem?_append_right hge, List.getElem?_singleton] at hj
      split at hj
      · cases hj
        exact .inr ⟨by omega, rfl⟩
      · cases hj
  refine ⟨?_, ?_, hs.held, hs.reported, ?_⟩
  · intro i j hj hopen
    rcases hnew i j hj with hold | ⟨-, rfl⟩
    · exact hs.opened i j hold hopen
    · rcases hopen with h | h <;> cases h
  · intro i hi
    rw [showSection, hroom] at hi
    cases hi
  · intro i j hj hlast
    rw [List.length_append, List.length_singleton] at hlast
    rcases hnew i j hj with hold | ⟨-, rfl⟩
    · have hlt := (List.getElem?_eq_some_iff.mp hold).1
      omega
    · rfl

/-! ## The answers -/

theorem good_grant {pass : ListenerPass} (hs : Good s) (hi : s.Stands i (·.progress = .requested))
    (hlast : i + 1 = s.joins.length) : Good (s.grant i pass) := by
  obtain ⟨j, hj, hrequested⟩ := hi
  have hroom : s.room = none := by
    cases hroom : s.room with
    | none => rfl
    | some k =>
      -- the room of the page would be this request's, which has no answer yet
      obtain ⟨j', pass', hcurrent⟩ := hs.current k hroom
      have hsame : k = i := by
        have hk := hcurrent.last
        omega
      subst hsame
      have hfound := hcurrent.found
      rw [hj] at hfound
      cases hfound
      exact absurd hrequested hcurrent.answered
  have hheld := hs.held hroom
  refine ⟨?_, ?_, fun h => (by cases h), ?_, ?_⟩
  · intro k j' hj' hopen
    obtain ⟨j₀, hj₀, rfl⟩ := update_joins hj'
    split at hopen
    · rename_i hsame
      rw [← hsame]
      rfl
    · exact absurd hopen (none_open hs hroom hj₀)
  · intro k hk
    cases hk
    refine ⟨j.letIn pass, pass, ?_, ?_, by simp [Joining.letIn], rfl, rfl, rfl,
      by simp [Joining.letIn]⟩
    · rw [grant, update, List.length_modify]
      exact hlast
    · simp [grant, update, hj]
  · intro id hid
    rcases List.mem_append.mp hid with hold | hnew
    · right
      exact (hs.reported id hold).resolve_left (by rw [hheld]; simp)
    · rw [List.mem_singleton.mp hnew]
      exact .inl rfl
  · intro k j' hj' hk
    obtain ⟨j₀, hj₀, rfl⟩ := update_joins hj'
    rw [grant, update, List.length_modify] at hk
    have hchosen := hs.chosen k j₀ hj₀ hk
    split <;> exact hchosen

theorem stands_milder {p : Joining → Prop} (hs : Good s)
    (hf : ∀ j, p j → s.Milder j (f j)) (hi : s.Stands i p) : Good (s.update i f) := by
  obtain ⟨j, hj, hp⟩ := hi
  refine good_update hs fun j' hj' => ?_
  rw [hj] at hj'
  cases hj'
  exact hf j hp

/-- A step in order keeps the page as it should be. -/
theorem good_step {e : Event} (hs : Good s) (horder : s.InOrder beacon e)
    (h : s.step beacon e = some t) : Good t := by
  cases e with
  | loaded info =>
    obtain ⟨-, ⟨⟩⟩ := Option.ite_none_right_eq_some.mp h
    exact ⟨hs.opened, hs.current, hs.held, hs.reported, hs.chosen⟩
  | loadFailed =>
    obtain ⟨-, ⟨⟩⟩ := Option.ite_none_right_eq_some.mp h
    exact ⟨hs.opened, hs.current, hs.held, hs.reported, hs.chosen⟩
  | choose lang =>
    obtain ⟨-, ⟨⟩⟩ := Option.ite_none_right_eq_some.mp h
    exact good_choose hs horder
  | change =>
    obtain ⟨-, ⟨⟩⟩ := Option.ite_none_right_eq_some.mp h
    exact good_showSection (good_change hs horder) .picker
  | retry =>
    obtain ⟨-, ⟨⟩⟩ := Option.ite_none_right_eq_some.mp h
    have hgood := good_disconnect hs fun id hid => by
      rw [show s.listenerId = none from horder] at hid
      cases hid
    exact ⟨hgood.opened, hgood.current, hgood.held, hgood.reported, hgood.chosen⟩
  | granted i pass =>
    obtain ⟨hi, ⟨⟩⟩ := Option.ite_none_right_eq_some.mp h
    exact good_grant hs hi horder
  | refused i =>
    obtain ⟨hi, ⟨⟩⟩ := Option.ite_none_right_eq_some.mp h
    exact good_showSection (stands_milder hs (fun j _ => milder_settle j) hi) .error
  | connected i published =>
    obtain ⟨hi, h⟩ := Option.ite_none_right_eq_some.mp h
    have hopen : ∀ (j : Joining) (progress : Progress), progress ≠ .requested →
        j.progress = .connecting ∧ j.link = .connecting →
        s.Milder j { j with progress, link := .connected, published := published } := by
      intro j progress hne hj
      exact ⟨rfl, rfl, fun _ => .inl hj.2, fun h => absurd h hne, fun _ h => .inl h⟩
    split at h
    · cases h
      exact good_showSection (stands_milder hs (fun j => hopen j .settled (by simp)) hi) .error
    · cases h
      exact stands_milder hs (fun j => hopen j .starting (by simp)) hi
  | connectFailed i =>
    obtain ⟨hi, ⟨⟩⟩ := Option.ite_none_right_eq_some.mp h
    refine good_showSection (stands_milder (f := fun j => j.close.settle) hs (fun j _ => ?_) hi) _
    have hclose := milder_close (s := s) j
    exact ⟨rfl, rfl, hclose.isOpen, fun h => (by cases h), hclose.subscribed⟩
  | audioStarted i =>
    obtain ⟨hi, ⟨⟩⟩ := Option.ite_none_right_eq_some.mp h
    have hgood := good_subscribeToWanted (stands_milder hs (fun j _ => milder_settle j) hi)
    exact ⟨hgood.opened, hgood.current, hgood.held, hgood.reported, hgood.chosen⟩
  | timeout =>
    obtain ⟨-, ⟨⟩⟩ := Option.ite_none_right_eq_some.mp h
    exact ⟨hs.opened, hs.current, hs.held, hs.reported, hs.chosen⟩
  | trackPublished i name =>
    obtain ⟨hi, ⟨⟩⟩ := Option.ite_none_right_eq_some.mp h
    apply good_subscribeToWanted
    exact stands_milder hs (fun j _ => ⟨rfl, rfl, id, id, fun _ h => .inl h⟩) hi
  | trackSubscribed i name =>
    obtain ⟨hi, h⟩ := Option.ite_none_right_eq_some.mp h
    split at h
    · cases h
      refine stands_milder hs (fun j _ => ⟨rfl, rfl, id, id, fun _ h => .inl ?_⟩) hi
      exact List.mem_of_mem_filter h
    · cases h
      exact ⟨hs.opened, hs.current, hs.held, hs.reported, hs.chosen⟩
  | reconnected i =>
    obtain ⟨-, ⟨⟩⟩ := Option.ite_none_right_eq_some.mp h
    exact good_subscribeToWanted hs
  | dropped i =>
    obtain ⟨hi, ⟨⟩⟩ := Option.ite_none_right_eq_some.mp h
    exact stands_milder hs (fun j _ => milder_close j) hi

/-- Only a tap on a language changes what is shown. -/
theorem step_nowLanguage {e : Event} (h : s.step beacon e = some t) :
    t.nowLanguage = match e with
      | .choose lang => some lang
      | _ => s.nowLanguage := by
  cases e with
  | change =>
    obtain ⟨-, ⟨⟩⟩ := Option.ite_none_right_eq_some.mp h
    exact (disconnect_nowLanguage _).trans (leave_nowLanguage beacon s)
  | retry =>
    obtain ⟨-, ⟨⟩⟩ := Option.ite_none_right_eq_some.mp h
    exact disconnect_nowLanguage s
  | connected =>
    obtain ⟨-, h⟩ := Option.ite_none_right_eq_some.mp h
    split at h <;> cases h <;> rfl
  | audioStarted | trackPublished | reconnected =>
    obtain ⟨-, ⟨⟩⟩ := Option.ite_none_right_eq_some.mp h
    exact subscribeToWanted_nowLanguage _
  | trackSubscribed =>
    obtain ⟨-, h⟩ := Option.ite_none_right_eq_some.mp h
    split at h <;> cases h <;> rfl
  | _ =>
    obtain ⟨-, ⟨⟩⟩ := Option.ite_none_right_eq_some.mp h
    rfl

/-! ## A tidy page -/

/-- No request to join is without an answer. -/
def Quiet (s : Page) : Prop := ∀ j ∈ s.joins, j.progress ≠ .requested

instance (s : Page) : Decidable s.Quiet := inferInstanceAs (Decidable (∀ j ∈ s.joins, _))

/-- The room of a request is connected. -/
def Connected (s : Page) (i : Nat) : Prop := s.Stands i (·.link = .connected)

instance (s : Page) (i : Nat) : Decidable (s.Connected i) :=
  inferInstanceAs (Decidable (s.Stands i _))

/-- `lang` is shown. One room is connected at most, which is the one of `lang`: the
page wants its track, and asks for no other. Every listener but the current one
was told to have left. -/
structure Tidy (s : Page) (lang : Option LanguageEntry) : Prop where
  shown : s.nowLanguage = lang
  one : ∀ i k, s.Connected i → s.Connected k → i = k
  wanted : ∀ i, s.Connected i → ∃ j pass, s.joins[i]? = some j ∧ j.pass = some pass ∧
    some j.language = lang ∧ s.wantedTrack = some pass.track_name ∧
    ∀ name ∈ j.subscribed, name = pass.track_name
  reported : ∀ id ∈ s.granted, s.listenerId = some id ∨ id ∈ s.left

theorem connected_room (hs : Good s) (hi : s.Connected i) : s.room = some i := by
  obtain ⟨j, hj, hlink⟩ := hi
  exact hs.opened i j hj (.inr hlink)

theorem tidy_of_good {lang : Option LanguageEntry} (hs : Good s) (hshown : s.nowLanguage = lang) :
    s.Tidy lang where
  shown := hshown
  one := by
    intro i k hi hk
    have hroom := connected_room hs hi
    rw [connected_room hs hk] at hroom
    exact (Option.some.inj hroom).symm
  wanted := by
    intro i hi
    obtain ⟨j, pass, hcurrent⟩ := hs.current i (connected_room hs hi)
    refine ⟨j, pass, hcurrent.found, hcurrent.granted, ?_, hcurrent.wanted, hcurrent.subscribed⟩
    rw [← hshown]
    exact (hs.chosen i j hcurrent.found hcurrent.last).symm
  reported := hs.reported

end Page

/-- The language last chosen. -/
def lastChosen (events : List Event) : Option LanguageEntry :=
  events.foldl (fun lang e => match e with
    | .choose lang => some lang
    | _ => lang) none

theorem shows_last_chosen {beacon : Bool} {events : List Event} {s : Page}
    (h : (pages beacon).run events = some s) : s.nowLanguage = lastChosen events := by
  refine (pages beacon).run_induction (P := fun events s => s.nowLanguage = lastChosen events)
    rfl ?_ h
  intro events s e t _ hshown hstep
  rw [Page.step_nowLanguage hstep, lastChosen, List.foldl_append, List.foldl_cons, List.foldl_nil]
  rw [lastChosen] at hshown
  rw [← hshown]
  cases e <;> rfl

/-- The page is tidy at each time of a run at which no request is out. -/
def TidyWheneverQuiet (beacon : Bool) (events : List Event) : Prop :=
  ∀ before after s, events = before ++ after → (pages beacon).run before = some s → s.Quiet →
    s.Tidy (lastChosen before)

theorem good_start : ({} : Page).Good :=
  ⟨by simp, by simp, fun _ => rfl, by simp, by simp⟩

/-- As long as every step is in order the page is tidy. -/
theorem tidy_while_in_order (beacon : Bool) (events : List Event)
    (horder : (pages beacon).Meets (Page.InOrder beacon) {} events) :
    TidyWheneverQuiet beacon events := by
  rintro before after s rfl hrun -
  have hgood := (pages beacon).kept_of_meets
    (fun _ _ _ hs horder hstep => Page.good_step hs horder hstep) good_start horder hrun
  exact Page.tidy_of_good hgood (shows_last_chosen hrun)

/-! ## A listener who changes languages -/

def language (code : String) : LanguageEntry where
  code
  native := code
  english := code
  rtl := false
  available := true
  is_source := false

def keynote : SessionInfo where
  session_id := "keynote"
  event_name := "Keynote"
  status := .live
  languages := [language "fr", language "ar"]

def passOf (code listener_id : String) : ListenerPass where
  listener_id
  session_id := "keynote"
  language := code
  url := ""
  token := ""
  track_name := "lang-" ++ code
  is_source := false

/-- Each request is answered before the next tap. -/
def patient : List Event := [.loaded keynote, .choose (language "fr"), .granted 0 (passOf "fr" "a"),
  .connected 0 ["lang-fr", "lang-ar"], .audioStarted 0, .trackSubscribed 0 "lang-fr", .change,
  .choose (language "ar"), .granted 1 (passOf "ar" "b"), .connected 1 ["lang-fr", "lang-ar"],
  .audioStarted 1, .trackSubscribed 1 "lang-ar"]

theorem tidy_while_patient :
    ((pages true).run patient).isSome ∧ TidyWheneverQuiet true patient :=
  ⟨by decide +kernel, tidy_while_in_order true patient (by decide +kernel)⟩

/-- The second language is chosen before the first is answered. -/
def hasty : List Event := [.loaded keynote, .choose (language "fr"), .change,
  .choose (language "ar"), .granted 0 (passOf "fr" "a"), .granted 1 (passOf "ar" "b"),
  .connected 0 [], .connected 1 [], .audioStarted 0, .audioStarted 1]

theorem hasty_evaluated :
    ((pages true).run hasty).any
      (fun s => s.Quiet ∧ s.Connected 0 ∧ s.Connected 1 ∧ s.left = []) = true := by
  decide +kernel

/-- The first room stays connected, and nobody is told that its listener has left. -/
theorem an_abandoned_choice_stays_connected : ¬ TidyWheneverQuiet true hasty := by
  intro htidy
  obtain ⟨s, hrun, hs⟩ := (Option.any_eq_true _ _).mp hasty_evaluated
  obtain ⟨hquiet, hfirst, hsecond, -⟩ := of_decide_eq_true hs
  have hone := (htidy hasty [] s (List.append_nil _).symm hrun hquiet).one 0 1 hfirst hsecond
  exact absurd hone (by decide)

end lad_translate.join_page
