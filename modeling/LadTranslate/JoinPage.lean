-- The listener's page (api/static/join.js). Its globals are one state, which the
-- taps, the answers of the server and the events of the rooms all write. A
-- request to join and the room that comes of it go by one number. What is
-- audible, and the texts of the page, are left out.
import LadTranslate.Languages
import LadTranslate.Machines

open machines

namespace lad_translate.join_page

open api (LanguageEntry SessionInfo ListenerPass)

/-- The section that is shown. -/
inductive View
  | nothing
  | picker
  | playing
  | error
deriving DecidableEq

/-- How far the chain of promises of `connect` has come. -/
inductive Progress
  | requested
  | connecting
  | starting
  | settled
deriving DecidableEq

/-- The room of a request. A room that is closed is never connected again. -/
inductive Link
  | absent
  | connecting
  | connected
  | closed
deriving DecidableEq

/-- A request to join. `published` and `subscribed` are the names of the tracks of
its room. -/
structure Joining where
  language : LanguageEntry
  progress : Progress := .requested
  pass : Option ListenerPass := none
  link : Link := .absent
  published : List String := []
  subscribed : List String := []

namespace Joining

/-- The grant, and a new room that is on its way. -/
def letIn (pass : ListenerPass) (j : Joining) : Joining :=
  { language := j.language, progress := .connecting, pass, link := .connecting }

/-- `room.disconnect()`, or the end of the connection. -/
def close (j : Joining) : Joining := { j with link := .closed, published := [], subscribed := [] }

def settle (j : Joining) : Joining := { j with progress := .settled }

/-- Ask for the track, wherever it is published. -/
def subscribe (wanted : Option String) (j : Joining) : Joining :=
  if j.link = .connected then
    { j with subscribed := j.subscribed ++
        j.published.filter fun name => some name = wanted ∧ name ∉ j.subscribed }
  else j

end Joining

/-- The globals of the page. `loads` counts the answers of `load` that are still to
come. `granted` and `left` are the listeners that the server has granted, and
those that it was told have left. -/
structure Page where
  view : View := .nothing
  loads : Nat := 1
  info : Option SessionInfo := none
  buttons : List LanguageEntry := []
  nowLanguage : Option LanguageEntry := none
  room : Option Nat := none
  listenerId : Option String := none
  wantedTrack : Option String := none
  resolvedSession : String := ""
  audioTimer : Bool := false
  joins : List Joining := []
  granted : List String := []
  left : List String := []

inductive Event
  | loaded (info : SessionInfo)
  | loadFailed
  | choose (lang : LanguageEntry)
  | change
  | retry
  | granted (i : Nat) (grant : ListenerPass)
  | refused (i : Nat)
  | connected (i : Nat) (published : List String)
  | connectFailed (i : Nat)
  | audioStarted (i : Nat)
  | timeout
  | trackPublished (i : Nat) (name : String)
  | trackSubscribed (i : Nat) (name : String)
  | reconnected (i : Nat)
  | dropped (i : Nat)

namespace Page

/-! ## The functions of the page -/

def showSection (s : Page) (view : View) : Page := { s with view }

/-- `fail`, without its message. -/
def fail (s : Page) : Page := s.showSection .error

def load (s : Page) : Page := { s.showSection .nothing with loads := s.loads + 1 }

/-- The request has come so far. -/
def Stands (s : Page) (i : Nat) (p : Joining → Prop) : Prop :=
  ∃ j, s.joins[i]? = some j ∧ p j

instance (s : Page) (i : Nat) (p : Joining → Prop) [DecidablePred p] : Decidable (s.Stands i p) :=
  match h : s.joins[i]? with
  | none => isFalse (by rintro ⟨j, hj, -⟩; rw [h] at hj; cases hj)
  | some j =>
    if hp : p j then isTrue ⟨j, h, hp⟩
    else isFalse (by rintro ⟨j', hj, hp'⟩; rw [h] at hj; cases hj; exact hp hp')

/-- Something happens to one request, or to its room. -/
def update (s : Page) (i : Nat) (f : Joining → Joining) : Page :=
  { s with joins := s.joins.modify i f }

def subscribeToWanted (s : Page) : Page :=
  match s.room with
  | none => s
  | some i => s.update i (Joining.subscribe s.wantedTrack)

@[simp] theorem subscribeToWanted_nowLanguage (s : Page) :
    s.subscribeToWanted.nowLanguage = s.nowLanguage := by
  unfold subscribeToWanted
  split <;> rfl

def closeRoom (s : Page) : Page :=
  match s.room with
  | none => s
  | some i => { s.update i Joining.close with room := none }

def disconnect (s : Page) : Page :=
  { s.closeRoom with audioTimer := false, listenerId := none, wantedTrack := none }

@[simp] theorem disconnect_nowLanguage (s : Page) : s.disconnect.nowLanguage = s.nowLanguage := by
  unfold disconnect closeRoom
  cases s.room <;> rfl

/-- `beacon` says whether the browser has `navigator.sendBeacon`. -/
def leave (beacon : Bool) (s : Page) : Page :=
  match s.listenerId with
  | none => s
  | some id =>
    if id = "" ∨ s.resolvedSession = "" ∨ beacon = false then s
    else { s with left := s.left ++ [id] }

@[simp] theorem leave_nowLanguage (beacon : Bool) (s : Page) :
    (s.leave beacon).nowLanguage = s.nowLanguage := by
  unfold leave
  split
  · rfl
  · split <;> rfl

/-- A session's languages are rendered, and the picker is shown, even if there is none. -/
def render (s : Page) (info : SessionInfo) : Page :=
  { s with info, buttons := info.languages, view := .picker }

/-- What the page makes of a grant. -/
def grant (s : Page) (i : Nat) (pass : ListenerPass) : Page :=
  let session := (s.info.map SessionInfo.session_id).getD ""
  { s.update i (Joining.letIn pass) with
    listenerId := pass.listener_id
    wantedTrack := pass.track_name
    resolvedSession := if pass.session_id = "" then session else pass.session_id
    room := i
    granted := s.granted ++ [pass.listener_id] }

/-! ## The steps -/

def step (beacon : Bool) (s : Page) : Event → Option Page
  | .loaded info =>
    if 0 < s.loads then some ({ s with loads := s.loads - 1 }.render info) else none
  | .loadFailed => if 0 < s.loads then some { s with loads := s.loads - 1 }.fail else none
  | .choose lang =>
    if s.view = .picker ∧ lang ∈ s.buttons then
      some { s.showSection .playing with
        nowLanguage := lang, joins := s.joins ++ [{ language := lang }] }
    else none
  | .change => if s.view = .playing then some ((s.leave beacon).disconnect.showSection .picker) else none
  | .retry => if s.view = .error then some s.disconnect.load else none
  | .granted i pass =>
    if s.Stands i (·.progress = .requested) then some (s.grant i pass) else none
  | .refused i =>
    if s.Stands i (·.progress = .requested) then some (s.update i Joining.settle).fail else none
  | .connected i published =>
    if s.Stands i fun j => j.progress = .connecting ∧ j.link = .connecting then
      -- startAudio is called on the page's room, which another request may have set
      match s.room with
      | none => some (s.update i fun j =>
          { j.settle with link := .connected, published := published }).fail
      | some _ => some (s.update i fun j =>
          { j with progress := .starting, link := .connected, published := published })
    else none
  | .connectFailed i =>
    if s.Stands i (·.progress = .connecting) then
      some (s.update i fun j => j.close.settle).fail
    else none
  | .audioStarted i =>
    if s.Stands i (·.progress = .starting) then
      some { (s.update i Joining.settle).subscribeToWanted with audioTimer := true }
    else none
  | .timeout => if s.audioTimer then some { s.fail with audioTimer := false } else none
  | .trackPublished i name =>
    if s.Stands i (·.link = .connected) then
      some (s.update i fun j => { j with published := j.published ++ [name] }).subscribeToWanted
    else none
  | .trackSubscribed i name =>
    if s.Stands i fun j => j.link = .connected ∧ name ∈ j.subscribed then
      if some name ≠ s.wantedTrack then
        some (s.update i fun j => { j with subscribed := j.subscribed.filter (· ≠ name) })
      else some { s with audioTimer := false }
    else none
  | .reconnected i =>
    if s.Stands i (·.link = .connected) then some s.subscribeToWanted else none
  | .dropped i =>
    if s.Stands i (·.link = .connected) then some (s.update i Joining.close) else none

end Page

/-- The page, from its opening on. -/
def pages (beacon : Bool) : Machine Page Event where
  start := {}
  step := Page.step beacon

end lad_translate.join_page
