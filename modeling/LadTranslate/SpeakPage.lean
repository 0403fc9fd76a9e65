-- The speaker's page (api/static/speak.js). Its globals hold one microphone, one
-- room and one ticker, and a tap of Stop releases what they hold. What a chain of
-- promises brings after that tap is released by nobody, so Stop is safe exactly
-- while no chain is on its way. The level meter and the texts are left out.
import LadTranslate.JoinPage

open machines

namespace lad_translate.speak_page

open join_page (Link)

/-- The section that is shown. -/
inductive View
  | nothing
  | start
  | live
  | error
deriving DecidableEq

/-- How far the chain of promises of a tap on Start has come. -/
inductive Progress
  | asking
  | requested
  | connecting
  | publishing
  | settled
deriving DecidableEq

/-- A tap on Start, and what came of it. `sentTo` is the room that its track is
published in. -/
structure Attempt where
  progress : Progress := .asking
  microphone : Bool := false
  link : Link := .absent
  sentTo : Option Nat := none
  ticking : Bool := false
deriving DecidableEq

namespace Attempt

def settle (a : Attempt) : Attempt := { a with progress := .settled }

/-- `room.disconnect()`, or the end of the connection. -/
def close (a : Attempt) : Attempt := { a with link := .closed }

/-- `stream.getTracks()`, each of them stopped. -/
def mute (a : Attempt) : Attempt := { a with microphone := false }

/-- `clearInterval(ticker)`. -/
def still (a : Attempt) : Attempt := { a with ticking := false }

def IsOpen (a : Attempt) : Prop := a.link = .connecting ∨ a.link = .connected

instance (a : Attempt) : Decidable a.IsOpen := inferInstanceAs (Decidable (_ ∨ _))

end Attempt

/-- The globals of the page. The microphone, the room and the ticker of an attempt
go by its number. `loads` counts the answers of `load` that are still to come. -/
structure Page where
  view : View := .nothing
  loads : Nat := 0
  room : Option Nat := none
  stream : Option Nat := none
  ticker : Option Nat := none
  attempts : List Attempt := []

inductive Event
  | loaded
  | loadFailed
  | go
  | stop
  | retry
  | pagehide
  | granted (i : Nat)
  | meterFailed (i : Nat)
  | refused (i : Nat)
  | passed (i : Nat)
  | turnedAway (i : Nat)
  | connected (i : Nat)
  | connectFailed (i : Nat)
  | published (i : Nat)
  | publishFailed (i : Nat)
  | dropped (i : Nat)
deriving DecidableEq

namespace Page

/-! ## The functions of the page -/

def showSection (s : Page) (view : View) : Page := { s with view }

/-- `fail`, without its message. -/
def fail (s : Page) : Page := s.showSection .error

/-- `secure` says whether the browser gives the page `getUserMedia`. -/
def load (secure : Bool) (s : Page) : Page :=
  if secure then { s.showSection .nothing with loads := s.loads + 1 }
  else (s.showSection .nothing).fail

/-- The attempt has come so far. -/
def Stands (s : Page) (i : Nat) (p : Attempt → Prop) : Prop :=
  ∃ a, s.attempts[i]? = some a ∧ p a

instance (s : Page) (i : Nat) (p : Attempt → Prop) [DecidablePred p] : Decidable (s.Stands i p) :=
  match h : s.attempts[i]? with
  | none => isFalse (by rintro ⟨a, ha, -⟩; rw [h] at ha; cases ha)
  | some a =>
    if hp : p a then isTrue ⟨a, h, hp⟩
    else isFalse (by rintro ⟨a', ha, hp'⟩; rw [h] at ha; cases ha; exact hp hp')

def update (s : Page) (i : Nat) (f : Attempt → Attempt) : Page :=
  { s with attempts := s.attempts.modify i f }

/-- Something happens to the attempt that a global holds. -/
def release (held : Option Nat) (f : Attempt → Attempt) (s : Page) : Page :=
  match held with
  | none => s
  | some i => s.update i f

def cleanup (s : Page) : Page :=
  { ((s.release s.ticker .still).release s.room .close).release s.stream .mute with
    ticker := none, room := none, stream := none }

/-! ## The steps -/

def step (secure : Bool) (s : Page) : Event → Option Page
  | .loaded => if 0 < s.loads then some ({ s with loads := s.loads - 1 }.showSection .start) else none
  | .loadFailed => if 0 < s.loads then some { s with loads := s.loads - 1 }.fail else none
  | .go =>
    if s.view = .start then
      some { s.showSection .live with attempts := s.attempts ++ [{}] }
    else none
  | .stop => if s.view = .live then some (s.cleanup.showSection .start) else none
  | .retry => if s.view = .error then some (s.cleanup.load secure) else none
  | .pagehide => some s.cleanup
  | .granted i =>
    if s.Stands i (·.progress = .asking) then
      some { s.update i fun a => { a with progress := .requested, microphone := true } with
        stream := i }
    else none
  | .meterFailed i =>
    -- the meter throws after the microphone was kept, and nothing is cleaned up
    if s.Stands i (·.progress = .asking) then
      some { (s.update i fun a => { a with progress := .settled, microphone := true }).fail with
        stream := i }
    else none
  | .refused i =>
    if s.Stands i (·.progress = .asking) then some (s.update i .settle).fail else none
  | .passed i =>
    if s.Stands i (·.progress = .requested) then
      some { s.update i fun a => { a with progress := .connecting, link := .connecting } with
        room := i }
    else none
  | .turnedAway i =>
    if s.Stands i (·.progress = .requested) then some (s.update i .settle).cleanup.fail else none
  | .connected i =>
    if s.Stands i fun a => a.progress = .connecting ∧ a.link = .connecting then
      -- the track goes to the page's room, which another attempt may have set
      match s.room with
      | none => some (s.update i fun a => { a.settle with link := .connected }).cleanup.fail
      | some j => some (s.update i fun a =>
          { a with progress := .publishing, link := .connected, sentTo := some j })
    else none
  | .connectFailed i =>
    if s.Stands i (·.progress = .connecting) then
      some (s.update i fun a => a.close.settle).cleanup.fail
    else none
  | .published i =>
    if s.Stands i fun a => a.progress = .publishing ∧
        ∃ j, a.sentTo = some j ∧ s.Stands j (·.link = .connected) then
      some { s.update i fun a => { a.settle with ticking := true } with ticker := i }
    else none
  | .publishFailed i =>
    if s.Stands i (·.progress = .publishing) then some (s.update i .settle).cleanup.fail else none
  | .dropped i => if s.Stands i (·.link = .connected) then some (s.update i .close) else none

end Page

/-- The page, from its opening on. -/
def pages (secure : Bool) : Machine Page Event where
  start := ({} : Page).load secure
  step := Page.step secure

/-! ## One attempt at a time -/

/-- Nothing of the attempt is left. -/
structure Attempt.Over (a : Attempt) : Prop where
  settled : a.progress = .settled
  muted : a.microphone = false
  closed : ¬ a.IsOpen
  still : a.ticking = false

/-- What the page holds while the attempt `n` is the one that counts: its view, its
stream, its room and its ticker. -/
inductive Stage (n : Nat) : View → Option Nat → Option Nat → Option Nat → Attempt → Prop
  | asking : Stage n .live none none none {}
  | requested : Stage n .live (some n) none none { progress := .requested, microphone := true }
  | connecting : Stage n .live (some n) (some n) none
      { progress := .connecting, microphone := true, link := .connecting }
  | publishing (link : Link) (h : link = .connected ∨ link = .closed) :
      Stage n .live (some n) (some n) none
        { progress := .publishing, microphone := true, link, sentTo := some n }
  | speaking (link : Link) (h : link = .connected ∨ link = .closed) :
      Stage n .live (some n) (some n) (some n)
        { progress := .settled, microphone := true, link, sentTo := some n, ticking := true }
  | unmetered : Stage n .error (some n) none none { progress := .settled, microphone := true }

/-- All attempts are over and the globals are empty, or one attempt counts, which is
the last one. -/
inductive Orderly : Page → Prop
  | idle {view : View} {loads : Nat} {attempts : List Attempt} (hover : ∀ a ∈ attempts, a.Over)
      (hloads : 0 < loads → view = .nothing ∧ loads = 1) :
      Orderly ⟨view, loads, none, none, none, attempts⟩
  | busy {view : View} {stream room ticker : Option Nat} {attempts : List Attempt} {a : Attempt}
      (hover : ∀ a ∈ attempts, a.Over) (hstage : Stage attempts.length view stream room ticker a) :
      Orderly ⟨view, 0, room, stream, ticker, attempts ++ [a]⟩

/-- A tap that cleans up, and the end of the page, come only while no chain of
promises is on its way. -/
def Page.InOrder (s : Page) : Event → Prop
  | .stop | .retry | .pagehide => ∀ a ∈ s.attempts, a.progress = .settled
  | _ => True

instance (s : Page) : (e : Event) → Decidable (s.InOrder e)
  | .stop | .retry | .pagehide =>
    inferInstanceAs (Decidable (∀ a ∈ s.attempts, a.progress = .settled))
  | .loaded | .loadFailed | .go | .granted _ | .meterFailed _ | .refused _ | .passed _
  | .turnedAway _ | .connected _ | .connectFailed _ | .published _ | .publishFailed _
  | .dropped _ => inferInstanceAs (Decidable True)

section

variable {secure : Bool} {s t : Page} {e : Event} {attempts : List Attempt} {a : Attempt} {i : Nat}
  {view : View} {stream room ticker : Option Nat} {p : Attempt → Prop}

theorem over_snoc (hover : ∀ a ∈ attempts, a.Over) (ha : a.Over) :
    ∀ b ∈ attempts ++ [a], b.Over := by
  intro b hb
  rcases List.mem_append.mp hb with hb | hb
  · exact hover b hb
  · rw [List.mem_singleton.mp hb]
    exact ha

theorem modify_at (attempts later : List Attempt) (a : Attempt) (f : Attempt → Attempt) :
    (attempts ++ a :: later).modify attempts.length f = attempts ++ f a :: later := by
  rw [List.modify_eq_take_cons_drop (by simp), List.take_left]
  simp

theorem modify_last (attempts : List Attempt) (a : Attempt) (f : Attempt → Attempt) :
    (attempts ++ [a]).modify attempts.length f = attempts ++ [f a] := modify_at attempts [] a f

theorem found_at (attempts later : List Attempt) (a : Attempt) :
    (attempts ++ a :: later)[attempts.length]? = some a := by
  rw [List.getElem?_append_right le_rfl, Nat.sub_self, List.getElem?_cons_zero]

/-- While all attempts are over, none is on its way. -/
theorem no_stand (hover : ∀ a ∈ s.attempts, a.Over) (hp : ∀ a, p a → ¬ a.Over) : ¬ s.Stands i p := by
  rintro ⟨a, ha, hpa⟩
  exact hp a hpa (hover a (List.mem_of_getElem? ha))

/-- Only the last attempt is on its way. -/
theorem stands_last {loads : Nat} (hover : ∀ a ∈ attempts, a.Over) (hp : ∀ a, p a → ¬ a.Over)
    (h : Page.Stands ⟨view, loads, room, stream, ticker, attempts ++ [a]⟩ i p) :
    i = attempts.length ∧ p a := by
  obtain ⟨b, hb, hpb⟩ := h
  simp only at hb
  rcases Nat.lt_trichotomy i attempts.length with hlt | rfl | hgt
  · rw [List.getElem?_append_left hlt] at hb
    exact absurd (hover b (List.mem_of_getElem? hb)) (hp b hpb)
  · rw [List.getElem?_concat_length, Option.some.injEq] at hb
    exact ⟨rfl, hb ▸ hpb⟩
  · rw [List.getElem?_eq_none (by simp; omega)] at hb
    cases hb

/-- What a page in order does to the attempts that an answer is about. -/
theorem orderly_answer (hs : Orderly s) (hp : ∀ a, p a → ¬ a.Over) (h : s.Stands i p) :
    ∃ view room stream ticker attempts a, s = ⟨view, 0, room, stream, ticker, attempts ++ [a]⟩ ∧
      (∀ a ∈ attempts, a.Over) ∧ Stage attempts.length view stream room ticker a ∧
      i = attempts.length ∧ p a := by
  cases hs with
  | idle hover => exact absurd h (no_stand hover hp)
  | busy hover hstage =>
    obtain ⟨hi, hpa⟩ := stands_last hover hp h
    exact ⟨_, _, _, _, _, _, rfl, hover, hstage, hi, hpa⟩

theorem orderly_cleanup (hs : Orderly s) (hsettled : ∀ a ∈ s.attempts, a.progress = .settled) :
    ∃ attempts, s.cleanup = ⟨s.view, s.loads, none, none, none, attempts⟩ ∧
      ∀ a ∈ attempts, a.Over := by
  cases hs with
  | idle hover => exact ⟨_, rfl, hover⟩
  | @busy view stream room ticker attempts a hover hstage =>
    have hlast := hsettled a (by simp)
    cases hstage with
    | speaking link hlink =>
      refine ⟨_, rfl, ?_⟩
      simp only [Page.release, Page.update, modify_last]
      exact over_snoc hover ⟨rfl, rfl, by simp [Attempt.IsOpen, Attempt.mute, Attempt.close], rfl⟩
    | unmetered =>
      refine ⟨_, rfl, ?_⟩
      simp only [Page.release, Page.update, modify_last]
      exact over_snoc hover ⟨rfl, rfl, by simp [Attempt.IsOpen, Attempt.mute], rfl⟩
    | asking | requested | connecting | publishing => cases hlast

/-- An attempt that has still to be settled is not over. -/
theorem not_over {x : Progress} (hx : x ≠ .settled) (a : Attempt) (ha : a.progress = x) :
    ¬ a.Over := fun hover => hx (ha ▸ hover.settled)

/-- An answer is still to come only while a section is shown. -/
theorem no_load (hs : Orderly s) (hview : s.view ≠ .nothing) : s.loads = 0 := by
  cases hs with
  | idle _ hloads =>
    by_contra h0
    exact hview (hloads (Nat.pos_of_ne_zero h0)).1
  | busy => rfl

/-- A chain that fails cleans up after itself. -/
theorem orderly_fail {f : Attempt → Attempt} {x : Progress} (hs : Orderly s) (hasking : x ≠ .asking)
    (hsettled : x ≠ .settled) (h : s.Stands i (·.progress = x))
    (hf : f = Attempt.settle ∨ f = fun a => a.close.settle) :
    Orderly (s.update i f).cleanup.fail := by
  obtain ⟨_, _, _, _, attempts, a, rfl, hover, hstage, rfl, ha⟩ :=
    orderly_answer hs (not_over hsettled) h
  cases hstage with
  | asking => exact absurd ha.symm hasking
  | speaking | unmetered => exact absurd ha.symm hsettled
  | requested | connecting | publishing =>
    simp only [Page.cleanup, Page.release, Page.update, Page.fail, Page.showSection, modify_last]
    refine .idle (over_snoc hover ?_) fun hpos => absurd hpos (lt_irrefl 0)
    rcases hf with rfl | rfl <;>
      exact ⟨rfl, rfl, by simp [Attempt.IsOpen, Attempt.settle, Attempt.mute, Attempt.close], rfl⟩

/-- The answer that `load` waited for is here. -/
theorem orderly_loaded (hs : Orderly s) (hload : 0 < s.loads) (view : View) :
    Orderly ({ s with loads := s.loads - 1 }.showSection view) := by
  cases hs with
  | idle hover hloads =>
    obtain ⟨-, rfl⟩ := hloads hload
    exact .idle hover fun hpos => absurd hpos (lt_irrefl 0)
  | busy => exact absurd hload (lt_irrefl 0)

theorem orderly_go (hs : Orderly s) (hview : s.view = .start) :
    Orderly { s.showSection .live with attempts := s.attempts ++ [{}] } := by
  have hloads := no_load hs (by rw [hview]; decide)
  cases hs with
  | idle hover =>
    cases hview
    cases hloads
    exact .busy hover .asking
  | busy hover hstage =>
    cases hview
    cases hstage

/-- A tap that cleans up, while all chains are settled. -/
theorem orderly_cleaned (hs : Orderly s) (hview : s.view ≠ .nothing)
    (hsettled : ∀ a ∈ s.attempts, a.progress = .settled) :
    ∃ attempts, s.cleanup = ⟨s.view, 0, none, none, none, attempts⟩ ∧ ∀ a ∈ attempts, a.Over := by
  obtain ⟨attempts, hclean, hover⟩ := orderly_cleanup hs hsettled
  exact ⟨attempts, no_load hs hview ▸ hclean, hover⟩

theorem orderly_pagehide (hs : Orderly s) (hsettled : ∀ a ∈ s.attempts, a.progress = .settled) :
    Orderly s.cleanup := by
  obtain ⟨attempts, hclean, hover⟩ := orderly_cleanup hs hsettled
  rw [hclean]
  refine .idle hover ?_
  cases hs with
  | idle _ hloads => exact hloads
  | busy => exact fun hpos => absurd hpos (lt_irrefl 0)

/-! ## The answers to an attempt -/

theorem orderly_granted (hs : Orderly s) (h : s.Stands i (·.progress = .asking)) :
    Orderly { s.update i fun a => { a with progress := .requested, microphone := true } with
      stream := i } := by
  obtain ⟨_, _, _, _, attempts, a, rfl, hover, hstage, rfl, ha⟩ :=
    orderly_answer hs (not_over (by decide)) h
  cases hstage <;> cases ha
  simp only [Page.update, modify_last]
  exact .busy hover .requested

theorem orderly_meterFailed (hs : Orderly s) (h : s.Stands i (·.progress = .asking)) :
    Orderly { (s.update i fun a => { a with progress := .settled, microphone := true }).fail with
      stream := i } := by
  obtain ⟨_, _, _, _, attempts, a, rfl, hover, hstage, rfl, ha⟩ :=
    orderly_answer hs (not_over (by decide)) h
  cases hstage <;> cases ha
  simp only [Page.update, Page.fail, Page.showSection, modify_last]
  exact .busy hover .unmetered

theorem orderly_refused (hs : Orderly s) (h : s.Stands i (·.progress = .asking)) :
    Orderly (s.update i .settle).fail := by
  obtain ⟨_, _, _, _, attempts, a, rfl, hover, hstage, rfl, ha⟩ :=
    orderly_answer hs (not_over (by decide)) h
  cases hstage <;> cases ha
  simp only [Page.update, Page.fail, Page.showSection, modify_last]
  refine .idle (over_snoc hover ⟨rfl, rfl, ?_, rfl⟩) fun hpos => absurd hpos (lt_irrefl 0)
  simp [Attempt.IsOpen, Attempt.settle]

theorem orderly_passed (hs : Orderly s) (h : s.Stands i (·.progress = .requested)) :
    Orderly { s.update i fun a => { a with progress := .connecting, link := .connecting } with
      room := i } := by
  obtain ⟨_, _, _, _, attempts, a, rfl, hover, hstage, rfl, ha⟩ :=
    orderly_answer hs (not_over (by decide)) h
  cases hstage <;> cases ha
  simp only [Page.update, modify_last]
  exact .busy hover .connecting

/-- The page's room is the one that connected. -/
theorem orderly_connected (hs : Orderly s)
    (h : s.Stands i fun a => a.progress = .connecting ∧ a.link = .connecting) :
    s.room = some i ∧
      Orderly (s.update i fun a =>
        { a with progress := .publishing, link := .connected, sentTo := some i }) := by
  obtain ⟨_, _, _, _, attempts, a, rfl, hover, hstage, rfl, ha, -⟩ :=
    orderly_answer hs (fun a ha => not_over (by decide) a ha.1) h
  cases hstage <;> cases ha
  simp only [Page.update, modify_last]
  exact ⟨trivial, .busy hover (.publishing .connected (.inl rfl))⟩

theorem orderly_published (hs : Orderly s) (h : s.Stands i (·.progress = .publishing)) :
    Orderly { s.update i fun a => { a.settle with ticking := true } with ticker := i } := by
  obtain ⟨_, _, _, _, attempts, a, rfl, hover, hstage, rfl, ha⟩ :=
    orderly_answer hs (not_over (by decide)) h
  cases hstage with
  | publishing link hlink =>
    simp only [Page.update, modify_last]
    exact .busy hover (.speaking link hlink)
  | asking | requested | connecting | speaking | unmetered => cases ha

theorem orderly_dropped (hs : Orderly s) (h : s.Stands i (·.link = .connected)) :
    Orderly (s.update i .close) := by
  obtain ⟨_, _, _, _, attempts, a, rfl, hover, hstage, rfl, ha⟩ :=
    orderly_answer hs (fun a ha hover => hover.closed (.inr ha)) h
  cases hstage with
  | publishing link hlink =>
    simp only [Page.update, modify_last]
    exact .busy hover (.publishing .closed (.inr rfl))
  | speaking link hlink =>
    simp only [Page.update, modify_last]
    exact .busy hover (.speaking .closed (.inr rfl))
  | asking | requested | connecting | unmetered => cases ha

/-- What every step in order keeps. -/
theorem orderly_step (hs : Orderly s) (horder : s.InOrder e) (h : s.step secure e = some t) :
    Orderly t := by
  cases e with
  | loaded =>
    obtain ⟨hload, heq⟩ := Option.ite_none_right_eq_some.mp h
    exact Option.some.inj heq ▸ orderly_loaded hs hload .start
  | loadFailed =>
    obtain ⟨hload, heq⟩ := Option.ite_none_right_eq_some.mp h
    exact Option.some.inj heq ▸ orderly_loaded hs hload .error
  | go =>
    obtain ⟨hview, heq⟩ := Option.ite_none_right_eq_some.mp h
    exact Option.some.inj heq ▸ orderly_go hs hview
  | stop =>
    obtain ⟨hview, heq⟩ := Option.ite_none_right_eq_some.mp h
    obtain rfl := Option.some.inj heq
    obtain ⟨attempts, hclean, hover⟩ := orderly_cleaned hs (by rw [hview]; decide) horder
    rw [hclean, Page.showSection]
    exact .idle hover fun hpos => absurd hpos (lt_irrefl 0)
  | retry =>
    obtain ⟨hview, heq⟩ := Option.ite_none_right_eq_some.mp h
    obtain rfl := Option.some.inj heq
    obtain ⟨attempts, hclean, hover⟩ := orderly_cleaned hs (by rw [hview]; decide) horder
    rw [hclean, Page.load]
    split
    · exact .idle hover fun _ => ⟨rfl, rfl⟩
    · exact .idle hover fun hpos => absurd hpos (lt_irrefl 0)
  | pagehide =>
    obtain rfl := Option.some.inj h
    exact orderly_pagehide hs horder
  | granted i =>
    obtain ⟨hstands, heq⟩ := Option.ite_none_right_eq_some.mp h
    exact Option.some.inj heq ▸ orderly_granted hs hstands
  | meterFailed i =>
    obtain ⟨hstands, heq⟩ := Option.ite_none_right_eq_some.mp h
    exact Option.some.inj heq ▸ orderly_meterFailed hs hstands
  | refused i =>
    obtain ⟨hstands, heq⟩ := Option.ite_none_right_eq_some.mp h
    exact Option.some.inj heq ▸ orderly_refused hs hstands
  | passed i =>
    obtain ⟨hstands, heq⟩ := Option.ite_none_right_eq_some.mp h
    exact Option.some.inj heq ▸ orderly_passed hs hstands
  | turnedAway i =>
    obtain ⟨hstands, heq⟩ := Option.ite_none_right_eq_some.mp h
    exact Option.some.inj heq ▸ orderly_fail hs (by decide) (by decide) hstands (.inl rfl)
  | connected i =>
    obtain ⟨hstands, heq⟩ := Option.ite_none_right_eq_some.mp h
    obtain ⟨hroom, ht⟩ := orderly_connected hs hstands
    rw [hroom] at heq
    exact Option.some.inj heq ▸ ht
  | connectFailed i =>
    obtain ⟨hstands, heq⟩ := Option.ite_none_right_eq_some.mp h
    exact Option.some.inj heq ▸ orderly_fail hs (by decide) (by decide) hstands (.inr rfl)
  | published i =>
    obtain ⟨⟨a, ha, hprogress, -⟩, heq⟩ := Option.ite_none_right_eq_some.mp h
    exact Option.some.inj heq ▸ orderly_published hs ⟨a, ha, hprogress⟩
  | publishFailed i =>
    obtain ⟨hstands, heq⟩ := Option.ite_none_right_eq_some.mp h
    exact Option.some.inj heq ▸ orderly_fail hs (by decide) (by decide) hstands (.inl rfl)
  | dropped i =>
    obtain ⟨hstands, heq⟩ := Option.ite_none_right_eq_some.mp h
    exact Option.some.inj heq ▸ orderly_dropped hs hstands

theorem orderly_start (secure : Bool) : Orderly (({} : Page).load secure) := by
  cases secure with
  | true => exact .idle (List.forall_mem_nil _) fun _ => ⟨rfl, rfl⟩
  | false => exact .idle (List.forall_mem_nil _) fun hpos => absurd hpos (lt_irrefl 0)

/-! ## What is left on -/

/-- What is on is the page's own: one microphone, one room and one ticker at most.
A room and a ticker are there only in the live view, and a microphone is not on
before Start is tapped. -/
structure Page.Calm (s : Page) : Prop where
  stream : ∀ i, s.Stands i (·.microphone = true) → s.stream = some i
  room : ∀ i, s.Stands i Attempt.IsOpen → s.room = some i
  ticker : ∀ i, s.Stands i (·.ticking = true) → s.ticker = some i
  live : s.view ≠ .live → ∀ i, ¬ s.Stands i Attempt.IsOpen ∧ ¬ s.Stands i (·.ticking = true)
  quiet : s.view = .start ∨ s.view = .nothing → ∀ i, ¬ s.Stands i (·.microphone = true)

theorem not_over_on (a : Attempt) (ha : a.microphone = true) : ¬ a.Over := by
  intro hover
  rw [hover.muted] at ha
  cases ha

theorem not_over_open (a : Attempt) (ha : a.IsOpen) : ¬ a.Over := fun hover => hover.closed ha

theorem not_over_ticking (a : Attempt) (ha : a.ticking = true) : ¬ a.Over := by
  intro hover
  rw [hover.still] at ha
  cases ha

theorem calm_of_orderly (hs : Orderly s) : s.Calm where
  stream := by
    intro i h
    obtain ⟨_, _, _, _, _, _, rfl, -, hstage, rfl, ha⟩ := orderly_answer hs not_over_on h
    cases hstage with
    | asking => cases ha
    | requested | connecting | publishing | speaking | unmetered => rfl
  room := by
    intro i h
    obtain ⟨_, _, _, _, _, _, rfl, -, hstage, rfl, ha⟩ := orderly_answer hs not_over_open h
    cases hstage with
    | asking | requested | unmetered => rcases ha with ha | ha <;> cases ha
    | connecting | publishing | speaking => rfl
  ticker := by
    intro i h
    obtain ⟨_, _, _, _, _, _, rfl, -, hstage, rfl, ha⟩ := orderly_answer hs not_over_ticking h
    cases hstage with
    | speaking => rfl
    | asking | requested | connecting | publishing | unmetered => cases ha
  live := by
    intro hview i
    constructor
    · intro h
      obtain ⟨_, _, _, _, _, _, rfl, -, hstage, rfl, ha⟩ := orderly_answer hs not_over_open h
      cases hstage with
      | unmetered => rcases ha with ha | ha <;> cases ha
      | asking | requested | connecting | publishing | speaking => exact hview rfl
    · intro h
      obtain ⟨_, _, _, _, _, _, rfl, -, hstage, rfl, ha⟩ := orderly_answer hs not_over_ticking h
      cases hstage with
      | unmetered => cases ha
      | asking | requested | connecting | publishing | speaking => exact hview rfl
  quiet := by
    intro hview i h
    obtain ⟨_, _, _, _, _, _, rfl, -, hstage, rfl, ha⟩ := orderly_answer hs not_over_on h
    rcases hview with rfl | rfl <;> cases hstage

/-! ## Stop, too early -/

/-- The page is calm whatever comes after, as long as it comes in order. -/
def StaysCalm (secure : Bool) (s : Page) : Prop :=
  ∀ events t, (pages secure).Meets Page.InOrder s events →
    (pages secure).runFrom s events = some t → t.Calm

theorem staysCalm_of_orderly (hs : Orderly s) : StaysCalm secure s := by
  intro events t hmeets hrun
  rw [← List.append_nil events] at hmeets
  exact calm_of_orderly ((pages secure).kept_of_meets
    (fun _ _ _ hs horder hstep => orderly_step hs horder hstep) hs hmeets hrun)

theorem StaysCalm.step {e : Event} (hs : StaysCalm secure s) (horder : s.InOrder e)
    (h : s.step secure e = some t) : StaysCalm secure t := by
  intro events u hmeets hrun
  have hstep : (pages secure).step s e = some t := h
  refine hs (e :: events) u ?_ ?_
  · rw [Machine.Meets, hstep]
    exact ⟨horder, hmeets⟩
  · rw [Machine.runFrom_cons, hstep]
    exact hrun

/-- A request that is answered outside of the live view opens a room there. -/
theorem not_staysCalm_of_requested (hview : view ≠ .live) (ha : a.progress = .requested) :
    ¬ StaysCalm secure ⟨view, 0, room, stream, ticker, attempts ++ [a]⟩ := by
  intro hcalm
  have hpassed := hcalm.step (e := .passed attempts.length) trivial
    (Option.ite_none_right_eq_some.mpr ⟨⟨a, found_at attempts [] a, ha⟩, rfl⟩)
  have hopen := ((hpassed [] _ trivial rfl).live hview attempts.length).1
  refine hopen ⟨{ a with progress := .connecting, link := .connecting }, ?_, .inl rfl⟩
  simp only [Page.update, modify_last]
  exact found_at attempts [] _

/-- And so does a microphone that is granted there. -/
theorem not_staysCalm_of_asking (hview : view ≠ .live) (ha : a.progress = .asking) :
    ¬ StaysCalm secure ⟨view, 0, room, stream, ticker, attempts ++ [a]⟩ := by
  intro hcalm
  have hgranted := hcalm.step (e := .granted attempts.length) trivial
    (Option.ite_none_right_eq_some.mpr ⟨⟨a, found_at attempts [] a, ha⟩, rfl⟩)
  simp only [Page.update, modify_last] at hgranted
  exact not_staysCalm_of_requested hview rfl hgranted

/-- A chain that fails after the next tap on Start shows its error while the next
attempt goes on. -/
theorem not_staysCalm_of_failing {x : Event} {f : Attempt → Attempt}
    (hx : ∀ s : Page, s.InOrder x)
    (hfails : ∀ later, Page.step secure ⟨.live, 0, none, none, none, attempts ++ a :: later⟩ x =
      some ⟨.error, 0, none, none, none, attempts ++ f a :: later⟩) :
    ¬ StaysCalm secure ⟨.start, 0, none, none, none, attempts ++ [a]⟩ := by
  intro hcalm
  have hagain := hcalm.step (e := .go) trivial rfl
  simp only [Page.showSection, List.append_assoc, List.singleton_append] at hagain
  have herror := hagain.step (hx _) (hfails [{}])
  rw [List.append_cons] at herror
  exact not_staysCalm_of_asking (show View.error ≠ .live by decide) rfl herror

/-- After a tap of Stop, what comes to an attempt that was on its way is heard
outside of the live view. -/
theorem not_staysCalm_of_stop (hs : Orderly s)
    (hpending : ¬ ∀ a ∈ s.attempts, a.progress = .settled) :
    ¬ StaysCalm secure (s.cleanup.showSection .start) := by
  cases hs with
  | idle hover => exact absurd (fun a ha => (hover a ha).settled) hpending
  | @busy view stream room ticker attempts a hover hstage =>
    cases hstage with
    | asking => exact not_staysCalm_of_asking nofun rfl
    | requested =>
      simp only [Page.cleanup, Page.release, Page.update, Page.showSection, modify_last]
      exact not_staysCalm_of_requested nofun rfl
    | connecting =>
      simp only [Page.cleanup, Page.release, Page.update, Page.showSection, modify_last]
      refine not_staysCalm_of_failing (x := .connectFailed attempts.length)
        (f := fun a => a.close.settle) (fun _ => trivial) fun later => ?_
      refine Option.ite_none_right_eq_some.mpr ⟨⟨_, found_at attempts later _, rfl⟩, ?_⟩
      simp only [Page.cleanup, Page.release, Page.update, Page.fail, Page.showSection, modify_at]
    | publishing link hlink =>
      simp only [Page.cleanup, Page.release, Page.update, Page.showSection, modify_last]
      refine not_staysCalm_of_failing (x := .publishFailed attempts.length) (f := .settle)
        (fun _ => trivial) fun later => ?_
      refine Option.ite_none_right_eq_some.mpr ⟨⟨_, found_at attempts later _, rfl⟩, ?_⟩
      simp only [Page.cleanup, Page.release, Page.update, Page.fail, Page.showSection, modify_at]
    | speaking | unmetered =>
      refine absurd ?_ hpending
      intro b hb
      rcases List.mem_append.mp hb with hb | hb
      · exact (hover b hb).settled
      · rw [List.mem_singleton.mp hb]

/-- As long as every tap that cleans up comes in order, what is on is the page's
own, and a room or a ticker is on only in the live view (a failed meter leaves
the microphone on in the error view). A tap of Stop keeps it so, whatever comes
after in order, exactly when no chain of promises is on its way. -/
theorem stop_is_safe_iff_nothing_is_on_its_way (secure : Bool) (events : List Event) (s : Page)
    (horder : (pages secure).Meets Page.InOrder (pages secure).start events)
    (hrun : (pages secure).run events = some s) :
    s.Calm ∧ ∀ t, s.step secure .stop = some t →
      (StaysCalm secure t ↔ ∀ a ∈ s.attempts, a.progress = .settled) := by
  rw [← List.append_nil events] at horder
  have hs : Orderly s := (pages secure).kept_of_meets
    (fun _ _ _ hs horder hstep => orderly_step hs horder hstep) (orderly_start secure) horder hrun
  refine ⟨calm_of_orderly hs, fun t hstop => ⟨fun hcalm => ?_, fun hsettled => ?_⟩⟩
  · by_contra hpending
    obtain ⟨-, heq⟩ := Option.ite_none_right_eq_some.mp hstop
    obtain rfl := Option.some.inj heq
    exact not_staysCalm_of_stop hs hpending hcalm
  · exact staysCalm_of_orderly (orderly_step (e := .stop) hs hsettled hstop)

end

/-! ## A speaker in a hurry -/

/-- A phone that asks for the microphone. -/
def aTap : List Event := [.loaded, .go]

theorem stop_is_unsafe_before_the_grant :
    ∃ s t, (pages true).run aTap = some s ∧ s.step true .stop = some t ∧ ¬ StaysCalm true t := by
  have hrun : (pages true).run aTap = some ⟨.live, 0, none, none, none, [{}]⟩ := rfl
  refine ⟨_, _, hrun, rfl, fun hcalm => ?_⟩
  have hsettled := ((stop_is_safe_iff_nothing_is_on_its_way true aTap _ (by decide) hrun).2 _
    rfl).mp hcalm
  exact absurd (hsettled {} (List.mem_singleton_self _)) (by decide)

end lad_translate.speak_page
