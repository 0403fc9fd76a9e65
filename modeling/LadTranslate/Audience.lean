-- The audience of the sessions: many listeners' pages (api/static/join.js), the
-- service that lets them in (api/join.py) and the rows it keeps of them
-- (db/sessions.py). An answer may be late or lost, and so may be the notice that a
-- listener has left, which may also come twice. A page is a number.
import LadTranslate.Choices
import LadTranslate.Closing
import LadTranslate.Join

open fallible machines tables

namespace lad_translate.api

open config sessions

/-- `POST /api/listeners/{listener_id}/leave`. -/
def App.leave {Uuid : Type} [DecidableEq Uuid] [UuidText Uuid] (app : App) (db : Database Uuid)
    (now : ℚ) (listener_id session_id : String) : Except HttpException (Database Uuid) := do
  let (store, _) ← app.loadSession db session_id
  let schema ← App.unhandled (store.listenerLeft now (db store.tenant.schema) listener_id)
  return Function.update db store.tenant.schema schema

end lad_translate.api

namespace lad_translate.join_page

open api config sessions

/-! ## The pages and the service -/

/-- Where a page is: `/s/<session-id>` or `/room/<room-name>`. -/
inductive Address
  | session (session_id : String)
  | room (room_name : String)

/-- The request to join of a page. -/
def Address.join (language : String) : Address → App.Endpoint
  | .session session_id => .join session_id language
  | .room room_name => .roomJoin room_name language

/-- A pass that the service has given to a request of a page, and the tenant whose
schema has its row. -/
structure Grant where
  page : Nat
  request : Nat
  tenant : TenantContext
  pass : ListenerPass
deriving DecidableEq

structure Audience (Uuid : Type) where
  db : Database Uuid
  pages : Nat → Page
  served : List Grant
  /-- The passes that have not come to their pages. -/
  replies : List Grant

/-- `hide` is the browser's `pagehide` or `beforeunload`. -/
inductive Scene
  | page (k : Nat) (event : Event)
  | hide (k : Nat)
  | serve (k i : Nat) (request : Request)
  | deliver (grant : Grant)
  | notice (k : Nat) (now : ℚ) (listener_id session_id : String)
  | elsewhere (schema : String) (turn : Turn)

/-- A call that writes to `session_listeners`. -/
def CountsListeners : StoreCall → Bool
  | .listenerJoined _ _ _ | .listenerLeft _ => true
  | _ => false

section

variable {Uuid : Type} [DecidableEq Uuid] [UuidText Uuid]

namespace Audience

/-- Something happens at a page. -/
def atPage (s : Audience Uuid) (k : Nat) (page : Page) : Audience Uuid :=
  { s with pages := Function.update s.pages k page }

/-- The service answers the request `i` of the page `k`. The id is a new `uuid4`. -/
def serve (app : App) (address : Address) (s : Audience Uuid) (k i : Nat) (request : Request)
    (j : Joining) : Audience Uuid :=
  let endpoint := address.join j.language.code
  match app.load s.db endpoint, app.post s.db request endpoint with
  | .ok (store, _), .ok (db, .inl pass) =>
    let grant : Grant := ⟨k, i, store.tenant, pass⟩
    { s with db, served := s.served ++ [grant], replies := s.replies ++ [grant] }
  | _, _ => s

def step (app : App) (beacon : Bool) (addresses : Nat → Address) (s : Audience Uuid) :
    Scene → Option (Audience Uuid)
  -- a grant comes by `deliver`
  | .page _ (.granted _ _) => none
  | .page k event => ((s.pages k).step beacon event).map (s.atPage k)
  | .hide k => some (s.atPage k ((s.pages k).leave beacon))
  | .serve k i request =>
    match (s.pages k).joins[i]? with
    | none => none
    | some j =>
      if (∀ g ∈ s.served, g.page ≠ k ∨ g.request ≠ i) ∧ ∀ g ∈ s.served,
          (UuidText.cast g.pass.listener_id : Option Uuid) ≠ UuidText.cast request.listener_id then
        some (serve app (addresses k) s k i request j)
      else none
  | .deliver grant =>
    if grant ∈ s.replies then
      ((s.pages grant.page).step beacon (.granted grant.request grant.pass)).map fun page =>
        { s.atPage grant.page page with replies := s.replies.erase grant }
    else none
  | .notice k now listener_id session_id =>
    if listener_id ∈ (s.pages k).left then
      match app.leave s.db now listener_id session_id with
      | .ok db => some { s with db }
      | .error _ => some s
    else none
  | .elsewhere schema turn =>
    if CountsListeners turn.call then none
    else some { s with
      db := Function.update s.db schema (turn.store.after turn.now (s.db schema) turn.call) }

end Audience

/-- The pages and the service, from empty tables on. -/
def audiences (app : App) (beacon : Bool) (addresses : Nat → Address) :
    Machine (Audience Uuid) Scene where
  start := ⟨fun _ => .empty, fun _ => {}, [], []⟩
  step := Audience.step app beacon addresses

end

/-! ## What a page says of its listeners -/

namespace Page

variable {beacon : Bool} {s t u : Page}

/-- No pass is new, no notice is taken back, and only the listener that is held is
told to have left. -/
structure Told (s t : Page) : Prop where
  granted : t.granted = s.granted
  kept : ∀ id ∈ s.left, id ∈ t.left
  left : ∀ id ∈ t.left, id ∈ s.left ∨ s.listenerId = some id
  held : t.listenerId = s.listenerId ∨ t.listenerId = none

theorem Told.of_eq (hgranted : t.granted = s.granted) (hleft : t.left = s.left)
    (hheld : t.listenerId = s.listenerId ∨ t.listenerId = none) : Told s t :=
  ⟨hgranted, fun _ h => hleft ▸ h, fun _ h => .inl (hleft ▸ h), hheld⟩

theorem told_leave (beacon : Bool) (s : Page) : Told s (s.leave beacon) := by
  unfold leave
  split
  · exact .of_eq rfl rfl (.inl rfl)
  · rename_i id hheld
    split
    · exact .of_eq rfl rfl (.inl rfl)
    · refine ⟨rfl, fun _ h => List.mem_append_left _ h, ?_, .inl rfl⟩
      intro id' h
      rcases List.mem_append.mp h with h | h
      · exact .inl h
      · rw [List.mem_singleton.mp h]
        exact .inr hheld

theorem told_disconnect (s : Page) : Told s s.disconnect := by
  unfold disconnect closeRoom
  split <;> exact .of_eq rfl rfl (.inr rfl)

theorem told_subscribe (s : Page) : Told s s.subscribeToWanted := by
  unfold subscribeToWanted
  split <;> exact .of_eq rfl rfl (.inl rfl)

theorem Told.trans (hst : Told s t) (htu : Told t u) : Told s u where
  granted := htu.granted.trans hst.granted
  kept id h := htu.kept id (hst.kept _ h)
  left id h := by
    rcases htu.left id h with h | h
    · exact hst.left id h
    · rcases hst.held with heq | hnone
      · exact .inr (heq.symm.trans h)
      · rw [hnone] at h
        cases h
  held := by
    rcases htu.held with h | h
    · rw [h]
      exact hst.held
    · exact .inr h

/-- Whatever happens at a page, but that a pass comes. -/
theorem told_step {e : Event} (hnot : ∀ i pass, e ≠ .granted i pass) (h : s.step beacon e = some t) :
    Told s t := by
  cases e with
  | granted i pass => exact absurd rfl (hnot i pass)
  | change =>
    obtain ⟨-, ⟨⟩⟩ := Option.ite_none_right_eq_some.mp h
    exact ((told_leave beacon s).trans (told_disconnect _)).trans (.of_eq rfl rfl (.inl rfl))
  | retry =>
    obtain ⟨-, ⟨⟩⟩ := Option.ite_none_right_eq_some.mp h
    exact (told_disconnect s).trans (.of_eq rfl rfl (.inl rfl))
  | connected =>
    obtain ⟨-, h⟩ := Option.ite_none_right_eq_some.mp h
    split at h <;> cases h <;> exact .of_eq rfl rfl (.inl rfl)
  | audioStarted | trackPublished =>
    obtain ⟨-, ⟨⟩⟩ := Option.ite_none_right_eq_some.mp h
    refine Told.trans (.of_eq ?_ ?_ (.inl ?_)) (Told.trans (told_subscribe _) (.of_eq rfl rfl (.inl rfl))) <;> rfl
  | reconnected =>
    obtain ⟨-, ⟨⟩⟩ := Option.ite_none_right_eq_some.mp h
    exact told_subscribe s
  | trackSubscribed =>
    obtain ⟨-, h⟩ := Option.ite_none_right_eq_some.mp h
    split at h <;> cases h <;> exact .of_eq rfl rfl (.inl rfl)
  | _ =>
    obtain ⟨-, ⟨⟩⟩ := Option.ite_none_right_eq_some.mp h
    exact .of_eq rfl rfl (.inl rfl)

theorem grant_of_step {i : Nat} {pass : ListenerPass} (h : s.step beacon (.granted i pass) = some t) :
    t.granted = s.granted ++ [pass.listener_id] ∧ t.left = s.left ∧
      t.listenerId = some pass.listener_id := by
  obtain ⟨-, ⟨⟩⟩ := Option.ite_none_right_eq_some.mp h
  exact ⟨rfl, rfl, rfl⟩

end Page

/-! ## What the service writes -/

section

variable {Uuid : Type} [DecidableEq Uuid] [UuidText Uuid]

/-- The row of a pass. -/
structure Grant.Of (g : Grant) (row : ListenerRow Uuid) : Prop where
  listener : UuidText.cast g.pass.listener_id = some row.listener_id
  session : UuidText.cast g.pass.session_id = some row.session_id
  tenant : UuidText.cast g.tenant.tenant_id = some row.tenant_id
  language : row.language = g.pass.language

omit [DecidableEq Uuid] in
/-- A row that is left stays the row of its pass. -/
theorem Grant.of_leave (g : Grant) {now : ℚ} {row row' : ListenerRow Uuid}
    (hleave : row.leave now = .ok row') : g.Of row ↔ g.Of row' := by
  unfold ListenerRow.leave at hleave
  split at hleave
  · cases hleave
    constructor
    · exact fun h => ⟨h.listener, h.session, h.tenant, h.language⟩
    · exact fun h => ⟨h.listener, h.session, h.tenant, h.language⟩
  · cases hleave

variable {app : App} {db db' : Database Uuid} {schema schema' : Schema Uuid}

theorem listenerJoined_row {store : SessionStore} {now : ℚ} {listener_id session_id language text : String}
    (h : store.listenerJoined now schema listener_id session_id language = .ok (schema', text)) :
    ∃ row : ListenerRow Uuid, text = listener_id ∧ UuidText.cast listener_id = some row.listener_id ∧
      UuidText.cast session_id = some row.session_id ∧
      UuidText.cast store.tenant.tenant_id = some row.tenant_id ∧ row.language = language ∧
      row.left_at = none ∧ schema'.session_listeners.rows = schema.session_listeners.rows ++ [row] := by
  unfold SessionStore.listenerJoined at h
  obtain ⟨listener, hlistener, h⟩ := bind_eq_ok.mp h
  obtain ⟨id, hid, h⟩ := bind_eq_ok.mp h
  obtain ⟨T, hT, h⟩ := bind_eq_ok.mp h
  obtain ⟨_, hinsert, h⟩ := bind_eq_ok.mp h
  cases h
  refine ⟨_, rfl, ?_, ?_, ?_, ?_, ?_, (Schema.insertListener_eq_ok hinsert).1⟩
  · exact SessionStore.uuid_eq_ok.mp hlistener
  · exact SessionStore.uuid_eq_ok.mp hid
  · exact SessionStore.uuid_eq_ok.mp hT
  · rfl
  · rfl

/-- Both addresses come to `_issue_listener`. -/
theorem issued_of_join {request : Request} {address : Address} {language : String}
    {pass : ListenerPass}
    (h : app.post db request (address.join language) = .ok (db', .inl pass)) :
    ∃ store session url, app.load db (address.join language) = .ok (store, session) ∧
      app.issueListener db request store session language url = .ok (db', pass) := by
  unfold App.post at h
  obtain ⟨⟨store, session⟩, hload, h⟩ := bind_eq_ok.mp h
  obtain ⟨url, -, h⟩ := bind_eq_ok.mp h
  refine ⟨store, session, url, hload, ?_⟩
  cases address with
  | session | room =>
    obtain ⟨⟨db'', pass'⟩, hissue, h⟩ := bind_eq_ok.mp h
    cases h
    exact hissue

/-- A request to join that is granted adds the open row of its pass. -/
theorem join_row {request : Request} {address : Address} {language : String} {store : SessionStore}
    {session : SessionRow Uuid} {pass : ListenerPass} {k i : Nat}
    (hload : app.load db (address.join language) = .ok (store, session))
    (h : app.post db request (address.join language) = .ok (db', .inl pass)) :
    ∃ (schema' : Schema Uuid) (row : ListenerRow Uuid),
      db' = Function.update db store.tenant.schema schema' ∧
      schema'.session_listeners.rows = (db store.tenant.schema).session_listeners.rows ++ [row] ∧
      Grant.Of ⟨k, i, store.tenant, pass⟩ row ∧ row.left_at = none ∧ pass.language = language ∧
      pass.listener_id = request.listener_id := by
  obtain ⟨store', session', url, hload', h⟩ := issued_of_join h
  rw [hload] at hload'
  obtain ⟨rfl, rfl⟩ := Prod.mk.inj (Except.ok.inj hload')
  unfold App.issueListener at h
  split at h
  · cases h
  · split at h
    · cases h
    · split at h
      · cases h
      · obtain ⟨⟨schema', text⟩, hjoined, h⟩ := bind_eq_ok.mp h
        cases h
        obtain ⟨row, rfl, hlistener, hsession, htenant, hlanguage, hopen, hrows⟩ :=
          listenerJoined_row (App.unhandled_eq_ok.mp hjoined)
        exact ⟨schema', row, rfl, hrows, ⟨hlistener, hsession, htenant, hlanguage⟩, hopen, rfl, rfl⟩

/-- A notice closes the row of its listener, when that is open, and no other. -/
theorem leave_rows {now : ℚ} {listener_id session_id : String}
    (h : app.leave db now listener_id session_id = .ok db') :
    ∃ (name : String) (schema' : Schema Uuid) (id T : Uuid),
      db' = Function.update db name schema' ∧ UuidText.cast listener_id = some id ∧
      List.Forall₂ (Comes (fun r => r.listener_id = id ∧ r.tenant_id = T ∧ r.left_at = none)
        (ListenerRow.leave now)) (db name).session_listeners.rows schema'.session_listeners.rows := by
  unfold App.leave at h
  obtain ⟨⟨store, session⟩, -, h⟩ := bind_eq_ok.mp h
  obtain ⟨schema', hleft, h⟩ := bind_eq_ok.mp h
  cases h
  rw [App.unhandled_eq_ok] at hleft
  unfold SessionStore.listenerLeft at hleft
  obtain ⟨id, hid, hleft⟩ := bind_eq_ok.mp hleft
  obtain ⟨T, -, hleft⟩ := bind_eq_ok.mp hleft
  exact ⟨_, schema', id, T, rfl, SessionStore.uuid_eq_ok.mp hid, (Schema.updateListeners_eq_ok hleft).1⟩

/-- The other calls of a store leave the listeners alone. -/
theorem listeners_after {turn : Turn} (hcall : CountsListeners turn.call = false) (schema : Schema Uuid) :
    (turn.store.after turn.now schema turn.call).session_listeners = schema.session_listeners := by
  unfold SessionStore.after
  split
  · rename_i schema' answer hok
    cases called_of_ok hok with
    | createSession config latency_credible text _ hok =>
      obtain ⟨-, -, -, -, -, hlisteners, -⟩ := SessionStore.createSession_spec hok
      exact hlisteners
    | markLive session_id _ hok =>
      obtain ⟨-, -, -, -, -, hlisteners, -⟩ := SessionStore.updateStatus_spec hok
      exact hlisteners
    | endSession session_id failure_reason billing _ hok =>
      obtain ⟨-, -, -, -, -, -, -, hlisteners, -⟩ := SessionStore.endSession_spec hok
      exact hlisteners
    | listenerJoined _ _ _ _ hjoined => rw [hjoined] at hcall; cases hcall
    | listenerLeft _ hleft => rw [hleft] at hcall; cases hcall
    | recordTranscript session_id row _ hok =>
      obtain ⟨id, T, hspan, -, -, hupsert⟩ := SessionStore.recordTranscript_spec.mp hok
      exact (Schema.upsertTranscript_eq_ok hupsert).2.2
    | reads _ hsame => rw [hsame]
  · rfl

/-! ## What every scene keeps -/

namespace Audience

variable {beacon : Bool} {addresses : Nat → Address} {s t : Audience Uuid}

/-- Each pass has its row, which is closed only when its page said that it left.
Each row has its pass, and a page has the passes that were given to it. -/
structure Sound (s : Audience Uuid) : Prop where
  fresh : (s.served.map fun g => (UuidText.cast g.pass.listener_id : Option Uuid)).Nodup
  row : ∀ g ∈ s.served, ∃ row ∈ (s.db g.tenant.schema).session_listeners.rows, g.Of row ∧
    (row.left_at ≠ none → g.pass.listener_id ∈ (s.pages g.page).left)
  only : ∀ name, ∀ row ∈ (s.db name).session_listeners.rows,
    ∃ g ∈ s.served, g.tenant.schema = name ∧ g.Of row
  replies : ∀ g ∈ s.replies, g ∈ s.served
  delivered : ∀ g ∈ s.served, g ∈ s.replies ∨ g.pass.listener_id ∈ (s.pages g.page).granted
  granted : ∀ k, ∀ id ∈ (s.pages k).granted, ∃ g ∈ s.served, g.page = k ∧ g.pass.listener_id = id
  held : ∀ k id, (s.pages k).listenerId = some id → id ∈ (s.pages k).granted
  left : ∀ k, ∀ id ∈ (s.pages k).left, id ∈ (s.pages k).granted

omit [DecidableEq Uuid] in
/-- A listener's id is that of one pass. -/
theorem Sound.unique (h : Sound s) {g g' : Grant} (hg : g ∈ s.served) (hg' : g' ∈ s.served)
    (hid : (UuidText.cast g.pass.listener_id : Option Uuid) = UuidText.cast g'.pass.listener_id) :
    g = g' := List.inj_on_of_nodup_map h.fresh hg hg' hid

omit [DecidableEq Uuid] in
theorem sound_told (h : Sound s) {k : Nat} {page : Page} (htold : Page.Told (s.pages k) page) :
    Sound (s.atPage k page) := by
  have hgranted : ∀ l, ((s.atPage k page).pages l).granted = (s.pages l).granted := by
    intro l
    by_cases hl : l = k
    · subst hl
      simp only [atPage, Function.update_self, htold.granted]
    · simp only [atPage, Function.update_of_ne hl]
  refine ⟨h.fresh, ?_, h.only, h.replies, ?_, ?_, ?_, ?_⟩
  · intro g hg
    obtain ⟨row, hrow, hof, hleft⟩ := h.row g hg
    refine ⟨row, hrow, hof, fun hclosed => ?_⟩
    by_cases hk : g.page = k
    · simp only [atPage, hk, Function.update_self]
      exact htold.kept _ (hk ▸ hleft hclosed)
    · simp only [atPage, Function.update_of_ne hk]
      exact hleft hclosed
  · intro g hg
    rw [hgranted]
    exact h.delivered g hg
  · intro l id hid
    rw [hgranted] at hid
    exact h.granted l id hid
  · intro l id hid
    rw [hgranted]
    by_cases hl : l = k
    · subst hl
      simp only [atPage, Function.update_self] at hid
      rcases htold.held with hsame | hnone
      · exact h.held l id (hsame ▸ hid)
      · rw [hnone] at hid
        cases hid
    · simp only [atPage, Function.update_of_ne hl] at hid
      exact h.held l id hid
  · intro l id hid
    rw [hgranted]
    by_cases hl : l = k
    · subst hl
      simp only [atPage, Function.update_self] at hid
      rcases htold.left id hid with hold | hheld
      · exact h.left l id hold
      · exact h.held l id hheld
    · simp only [atPage, Function.update_of_ne hl] at hid
      exact h.left l id hid

theorem sound_serve (h : Sound s) {k i : Nat} {request : Request} {j : Joining} {address : Address}
    (hfresh : ∀ g ∈ s.served, (UuidText.cast g.pass.listener_id : Option Uuid) ≠
      UuidText.cast request.listener_id) : Sound (serve app address s k i request j) := by
  unfold serve
  simp only
  split
  · rename_i store session db pass hload hpost
    obtain ⟨schema', row, rfl, hrows, hof, hopen, -, hid⟩ := join_row (k := k) (i := i) hload hpost
    have hkeeps : ∀ name, ∀ r ∈ (s.db name).session_listeners.rows,
        r ∈ (Function.update s.db store.tenant.schema schema' name).session_listeners.rows := by
      intro name r hr
      by_cases hname : name = store.tenant.schema
      · subst hname
        rw [Function.update_self, hrows]
        exact List.mem_append_left _ hr
      · rwa [Function.update_of_ne hname]
    refine ⟨?_, ?_, ?_, ?_, ?_, ?_, h.held, h.left⟩
    · simp only
      rw [List.map_append, List.nodup_append']
      refine ⟨h.fresh, List.nodup_singleton _, ?_⟩
      intro id hold hnew
      obtain ⟨g, hg, rfl⟩ := List.mem_map.mp hold
      rw [List.map_singleton, List.mem_singleton, hid] at hnew
      exact hfresh g hg hnew
    · intro g hg
      rcases List.mem_append.mp hg with hg | hg
      · obtain ⟨r, hr, hgof, hleft⟩ := h.row g hg
        exact ⟨r, hkeeps _ r hr, hgof, hleft⟩
      · rw [List.mem_singleton.mp hg]
        refine ⟨row, ?_, hof, fun hclosed => absurd hopen hclosed⟩
        simp only [Function.update_self, hrows]
        exact List.mem_append_right _ (List.mem_singleton_self row)
    · intro name r hr
      have hold : r ∈ (s.db name).session_listeners.rows → ∃ g ∈ s.served ++ [⟨k, i, store.tenant, pass⟩],
          g.tenant.schema = name ∧ g.Of r := by
        intro hr
        obtain ⟨g, hg, hname, hgof⟩ := h.only name r hr
        exact ⟨g, List.mem_append_left _ hg, hname, hgof⟩
      by_cases hname : name = store.tenant.schema
      · subst hname
        simp only [Function.update_self, hrows] at hr
        rcases List.mem_append.mp hr with hr | hr
        · exact hold hr
        · rw [List.mem_singleton.mp hr]
          exact ⟨_, List.mem_append_right _ (List.mem_singleton_self _), rfl, hof⟩
      · simp only [Function.update_of_ne hname] at hr
        exact hold hr
    · intro g hg
      exact List.mem_append.mpr ((List.mem_append.mp hg).imp_left (h.replies g))
    · intro g hg
      rcases List.mem_append.mp hg with hg | hg
      · exact (h.delivered g hg).imp_left (List.mem_append_left _)
      · exact .inl (List.mem_append_right _ hg)
    · intro l id hl
      obtain ⟨g, hg, hpage, hgid⟩ := h.granted l id hl
      exact ⟨g, List.mem_append_left _ hg, hpage, hgid⟩
  · exact h

omit [DecidableEq Uuid] in
/-- A pass comes to its page. -/
theorem sound_deliver (h : Sound s) {g : Grant} (hg : g ∈ s.replies) {page : Page}
    (hgranted : page.granted = (s.pages g.page).granted ++ [g.pass.listener_id])
    (hleft : page.left = (s.pages g.page).left) (hheld : page.listenerId = some g.pass.listener_id) :
    Sound { s.atPage g.page page with replies := s.replies.erase g } := by
  have hmore : ∀ l, ∀ id ∈ (s.pages l).granted,
      id ∈ (Function.update s.pages g.page page l).granted := by
    intro l id hid
    by_cases hl : l = g.page
    · subst hl
      rw [Function.update_self, hgranted]
      exact List.mem_append_left _ hid
    · rwa [Function.update_of_ne hl]
  have hsame : ∀ l, (Function.update s.pages g.page page l).left = (s.pages l).left := by
    intro l
    by_cases hl : l = g.page
    · subst hl
      rw [Function.update_self, hleft]
    · rw [Function.update_of_ne hl]
  have hhere : g.pass.listener_id ∈ (Function.update s.pages g.page page g.page).granted := by
    rw [Function.update_self, hgranted]
    exact List.mem_append_right _ (List.mem_singleton_self _)
  refine ⟨h.fresh, ?_, h.only, fun g' hg' => h.replies g' (List.mem_of_mem_erase hg'), ?_, ?_, ?_, ?_⟩
  · intro g' hg'
    obtain ⟨row, hrow, hof, hclosed⟩ := h.row g' hg'
    refine ⟨row, hrow, hof, fun h => ?_⟩
    simp only [atPage, hsame]
    exact hclosed h
  · intro g' hg'
    by_cases heq : g' = g
    · exact .inr (heq ▸ hhere)
    · refine (h.delivered g' hg').imp ?_ (hmore _ _)
      exact fun hmem => (List.mem_erase_of_ne heq).mpr hmem
  · intro l id hid
    by_cases hl : l = g.page
    · subst hl
      simp only [atPage, Function.update_self, hgranted] at hid
      rcases List.mem_append.mp hid with hid | hid
      · exact h.granted g.page id hid
      · exact ⟨g, h.replies g hg, rfl, (List.mem_singleton.mp hid).symm⟩
    · simp only [atPage, Function.update_of_ne hl] at hid
      exact h.granted l id hid
  · intro l id hid
    by_cases hl : l = g.page
    · subst hl
      simp only [atPage, Function.update_self] at hid
      rw [hheld, Option.some.injEq] at hid
      exact hid ▸ hhere
    · simp only [atPage, Function.update_of_ne hl] at hid
      exact hmore l id (h.held l id hid)
  · intro l id hid
    simp only [atPage, hsame] at hid
    exact hmore l id (h.left l id hid)

/-- The rows are changed where a notice of a page tells so. -/
theorem sound_notice (h : Sound s) {k : Nat} {now : ℚ} {listener_id session_id : String}
    (hsent : listener_id ∈ (s.pages k).left) {db : Database Uuid}
    (hleave : app.leave s.db now listener_id session_id = .ok db) : Sound { s with db } := by
  obtain ⟨name, schema', id, T, rfl, hid, hall⟩ := leave_rows hleave
  -- a row keeps what it says of its pass
  have hcomes : ∀ r r', Comes (fun r => r.listener_id = id ∧ r.tenant_id = T ∧ r.left_at = none)
      (ListenerRow.leave now) r r' → ∀ g : Grant, (g.Of r ↔ g.Of r') ∧
        (r'.left_at = r.left_at ∨ r.listener_id = id) := by
    rintro r r' (⟨hpick, hf⟩ | ⟨-, rfl⟩) g
    · simp only [decide_eq_true_eq] at hpick
      exact ⟨g.of_leave hf, .inr hpick.1⟩
    · exact ⟨Iff.rfl, .inl rfl⟩
  refine ⟨h.fresh, ?_, ?_, h.replies, h.delivered, h.granted, h.held, h.left⟩
  · intro g hg
    obtain ⟨row, hrow, hof, hclosed⟩ := h.row g hg
    by_cases hname : g.tenant.schema = name
    · subst hname
      obtain ⟨row', hrow', hcome⟩ := change_mem hall hrow
      obtain ⟨hsame, hleft⟩ := hcomes row row' hcome g
      refine ⟨row', ?_, hsame.mp hof, fun hclosed' => ?_⟩
      · simp only [Function.update_self]
        exact hrow'
      · rcases hleft with heq | hthis
        · exact hclosed (heq ▸ hclosed')
        · -- the notice is about this pass, so its page has sent it
          obtain ⟨g', hg', hpage, hid'⟩ := h.granted k listener_id (h.left k listener_id hsent)
          have hgg : g = g' := by
            apply h.unique hg hg'
            rw [hid', hid, hof.listener, hthis]
          rw [hgg, hpage, hid']
          exact hsent
    · refine ⟨row, ?_, hof, hclosed⟩
      simp only [Function.update_of_ne hname]
      exact hrow
  · intro other row' hrow'
    by_cases hother : other = name
    · subst hother
      simp only [Function.update_self] at hrow'
      obtain ⟨row, hrow, hcome⟩ := mem_change hall hrow'
      obtain ⟨g, hg, hschema, hof⟩ := h.only other row hrow
      exact ⟨g, hg, hschema, ((hcomes row row' hcome g).1).mp hof⟩
    · simp only [Function.update_of_ne hother] at hrow'
      exact h.only other row' hrow'

omit [DecidableEq Uuid] in
theorem sound_elsewhere (h : Sound s) {name : String} {schema' : Schema Uuid}
    (hsame : schema'.session_listeners = (s.db name).session_listeners) :
    Sound { s with db := Function.update s.db name schema' } := by
  have hrows : ∀ other, (Function.update s.db name schema' other).session_listeners =
      (s.db other).session_listeners := by
    intro other
    by_cases hother : other = name
    · subst hother
      rw [Function.update_self, hsame]
    · rw [Function.update_of_ne hother]
  refine ⟨h.fresh, ?_, ?_, h.replies, h.delivered, h.granted, h.held, h.left⟩
  · intro g hg
    simp only [hrows]
    exact h.row g hg
  · intro other row hrow
    simp only [hrows] at hrow
    exact h.only other row hrow

theorem sound_step (h : Sound s) {scene : Scene} (hstep : s.step app beacon addresses scene = some t) :
    Sound t := by
  cases scene with
  | page k event =>
    have htold : ∀ page, (∀ i pass, event ≠ .granted i pass) → (s.pages k).step beacon event = some page →
        Sound (s.atPage k page) := fun page hnot hpage => sound_told h (Page.told_step hnot hpage)
    cases event with
    | granted i pass => cases hstep
    | _ =>
      obtain ⟨page, hpage, rfl⟩ := Option.map_eq_some_iff.mp hstep
      exact htold page (by simp) hpage
  | hide k =>
    cases hstep
    exact sound_told h (Page.told_leave beacon _)
  | serve k i request =>
    simp only [step] at hstep
    split at hstep
    · cases hstep
    · obtain ⟨⟨-, hfresh⟩, ⟨⟩⟩ := Option.ite_none_right_eq_some.mp hstep
      exact sound_serve h hfresh
  | deliver grant =>
    obtain ⟨hgrant, hstep⟩ := Option.ite_none_right_eq_some.mp hstep
    obtain ⟨page, hpage, rfl⟩ := Option.map_eq_some_iff.mp hstep
    obtain ⟨hgranted, hleft, hheld⟩ := Page.grant_of_step hpage
    exact sound_deliver h hgrant hgranted hleft hheld
  | notice k now listener_id session_id =>
    obtain ⟨hsent, hstep⟩ := Option.ite_none_right_eq_some.mp hstep
    split at hstep
    · rename_i db hleave
      cases hstep
      exact sound_notice h hsent hleave
    · cases hstep
      exact h
  | elsewhere name turn =>
    obtain ⟨hcall, ⟨⟩⟩ := Option.ite_none_left_eq_some.mp hstep
    exact sound_elsewhere h (listeners_after (Bool.eq_false_iff.mpr hcall) _)

theorem sound_start :
    Sound (audiences app beacon addresses : Machine (Audience Uuid) Scene).start := by
  refine ⟨List.nodup_nil, ?_, ?_, ?_, ?_, ?_, ?_, ?_⟩ <;> simp [audiences, Schema.empty, Table.empty]

theorem sound_of_run {scenes : List Scene} (h : (audiences app beacon addresses).run scenes = some s) :
    Sound s :=
  (audiences app beacon addresses).invariant (P := Sound) sound_start
    (fun _ _ _ hs hstep => sound_step hs hstep) ⟨scenes, h⟩

/-! ## How many listen -/

/-- The page holds a pass for the language, and has not said that it left. -/
def Listens (s : Audience Uuid) (tenant : TenantContext) (session_id language : String) (k : Nat) : Prop :=
  ∃ g ∈ s.served, g.page = k ∧ g.tenant.schema = tenant.schema ∧
    (UuidText.cast g.tenant.tenant_id : Option Uuid) = UuidText.cast tenant.tenant_id ∧
    (UuidText.cast g.pass.session_id : Option Uuid) = UuidText.cast session_id ∧
    g.pass.language = language ∧ (s.pages k).listenerId = some g.pass.listener_id ∧
    g.pass.listener_id ∉ (s.pages k).left

instance (s : Audience Uuid) (tenant : TenantContext) (session_id language : String) (k : Nat) :
    Decidable (s.Listens tenant session_id language k) :=
  inferInstanceAs (Decidable (∃ g ∈ s.served, _))

/-- The pages that listen to a language of a session. -/
def listening (s : Audience Uuid) (tenant : TenantContext) (session_id language : String) : Finset Nat :=
  (s.served.map (·.page)).toFinset.filter (s.Listens tenant session_id language)

theorem mem_listening {tenant : TenantContext} {session_id language : String} {k : Nat} :
    k ∈ s.listening tenant session_id language ↔ s.Listens tenant session_id language k := by
  unfold listening
  rw [Finset.mem_filter, List.mem_toFinset, List.mem_map]
  exact ⟨And.right, fun h => ⟨h.imp fun g hg => ⟨hg.1, hg.2.1⟩, h⟩⟩

/-- The listener that a page holds. -/
def idOf (s : Audience Uuid) (k : Nat) : Option Uuid := (s.pages k).listenerId.bind UuidText.cast

omit [DecidableEq Uuid] [UuidText Uuid] in
theorem lookup_countByLanguage (rows : List (ListenerRow Uuid)) (language : String) :
    ((SessionStore.countByLanguage rows).lookup language).getD 0 =
      (rows.filter (·.language = language)).length := by
  have hlookup : ∀ (l : List String) (f : String → Nat),
      (l.map fun x => (x, f x)).lookup language = if language ∈ l then some (f language) else none := by
    intro l f
    induction l with
    | nil => rfl
    | cons x l ih =>
      rw [List.map_cons, List.lookup_cons, ih]
      by_cases hx : language = x
      · simp [hx]
      · have hne : (language == x) = false := by simpa using hx
        simp [hx, hne]
  unfold SessionStore.countByLanguage
  rw [hlookup]
  by_cases hmem : language ∈ (rows.map (·.language)).dedup
  · rw [if_pos hmem, Option.getD_some]
  · rw [if_neg hmem, Option.getD_none]
    symm
    rw [List.length_eq_zero_iff, List.filter_eq_nil_iff]
    intro r hr hlanguage
    apply hmem
    rw [List.mem_dedup, List.mem_map]
    exact ⟨r, hr, by simpa using hlanguage⟩

/-- The open rows that are counted for a language. -/
def openRows (s : Audience Uuid) (tenant : TenantContext) (T id : Uuid) (language : String) :
    List (ListenerRow Uuid) :=
  ((s.db tenant.schema).session_listeners.rows.filter fun r =>
    r.tenant_id = T ∧ r.session_id = id ∧ r.left_at = none).filter (·.language = language)

omit [UuidText Uuid] in
theorem mem_openRows {tenant : TenantContext} {T id : Uuid} {language : String} {r : ListenerRow Uuid} :
    r ∈ s.openRows tenant T id language ↔ r ∈ (s.db tenant.schema).session_listeners.rows ∧
      r.tenant_id = T ∧ r.session_id = id ∧ r.left_at = none ∧ r.language = language := by
  unfold openRows
  rw [List.mem_filter, List.mem_filter, decide_eq_true_eq, decide_eq_true_eq]
  tauto

omit [UuidText Uuid] in
/-- Different rows are those of different listeners. -/
theorem openRows_nodup (s : Audience Uuid) (tenant : TenantContext) (T id : Uuid) (language : String) :
    ((s.openRows tenant T id language).map fun r => some r.listener_id).Nodup := by
  have hunique := (s.db tenant.schema).session_listeners.unique
  have hsome := hunique.map (Option.some_injective Uuid)
  rw [List.map_map] at hsome
  exact hsome.sublist ((List.filter_sublist.trans List.filter_sublist).map _)

/-! ## A settled audience -/

/-- The tap, the answer or the pass comes in order at its page. -/
def InOrder (beacon : Bool) (s : Audience Uuid) : Scene → Prop
  | .page k event => (s.pages k).InOrder beacon event
  | .deliver grant => (s.pages grant.page).InOrder beacon (.granted grant.request grant.pass)
  | _ => True

instance (beacon : Bool) (s : Audience Uuid) : (scene : Scene) → Decidable (s.InOrder beacon scene)
  | .page k event => inferInstanceAs (Decidable ((s.pages k).InOrder beacon event))
  | .deliver grant => inferInstanceAs
      (Decidable ((s.pages grant.page).InOrder beacon (.granted grant.request grant.pass)))
  | .hide _ | .serve _ _ _ | .notice _ _ _ _ | .elsewhere _ _ => inferInstanceAs (Decidable True)

/-- No pass is on its way, and each notice that was sent has come. -/
def Settled (s : Audience Uuid) : Prop :=
  s.replies = [] ∧ ∀ g ∈ s.served, g.pass.listener_id ∈ (s.pages g.page).left →
    ∀ row ∈ (s.db g.tenant.schema).session_listeners.rows, g.Of row → row.left_at ≠ none

instance (g : Grant) (row : ListenerRow Uuid) : Decidable (g.Of row) :=
  decidable_of_iff
    ((UuidText.cast g.pass.listener_id = some row.listener_id ∧
        UuidText.cast g.pass.session_id = some row.session_id) ∧
      UuidText.cast g.tenant.tenant_id = some row.tenant_id ∧ row.language = g.pass.language)
    ⟨fun h => ⟨h.1.1, h.1.2, h.2.1, h.2.2⟩, fun h => ⟨⟨h.listener, h.session⟩, h.tenant, h.language⟩⟩

instance (s : Audience Uuid) : Decidable s.Settled := inferInstanceAs (Decidable (_ ∧ _))

omit [DecidableEq Uuid] [UuidText Uuid] in
theorem good_hide (beacon : Bool) {page : Page} (hs : Page.Good page) : Page.Good (page.leave beacon) := by
  unfold Page.leave
  split
  · exact hs
  · split
    · exact hs
    · exact ⟨hs.opened, hs.current, hs.held,
        fun id hid => (hs.reported id hid).imp_right (List.mem_append_left _), hs.chosen⟩

theorem good_scene {scene : Scene} (hs : ∀ k, Page.Good (s.pages k)) (horder : s.InOrder beacon scene)
    (hstep : s.step app beacon addresses scene = some t) (k : Nat) : Page.Good (t.pages k) := by
  have hat : ∀ l page, Page.Good page → Page.Good (Function.update s.pages l page k) := by
    intro l page hpage
    by_cases hk : k = l
    · subst hk
      rwa [Function.update_self]
    · rw [Function.update_of_ne hk]
      exact hs k
  cases scene with
  | page l event =>
    have hpages : (s.pages l).InOrder beacon event := horder
    cases event with
    | granted i pass => cases hstep
    | _ =>
      obtain ⟨page, hpage, rfl⟩ := Option.map_eq_some_iff.mp hstep
      exact hat l page (Page.good_step (hs l) hpages hpage)
  | hide l =>
    cases hstep
    exact hat l _ (good_hide beacon (hs l))
  | serve l i request =>
    simp only [step] at hstep
    split at hstep
    · cases hstep
    · obtain ⟨-, ⟨⟩⟩ := Option.ite_none_right_eq_some.mp hstep
      unfold serve
      simp only
      split <;> exact hs k
  | deliver grant =>
    obtain ⟨-, hstep⟩ := Option.ite_none_right_eq_some.mp hstep
    obtain ⟨page, hpage, rfl⟩ := Option.map_eq_some_iff.mp hstep
    have hpages : (s.pages grant.page).InOrder beacon (.granted grant.request grant.pass) := horder
    exact hat grant.page page (Page.good_step (hs grant.page) hpages hpage)
  | notice l now listener_id session_id =>
    obtain ⟨-, hstep⟩ := Option.ite_none_right_eq_some.mp hstep
    split at hstep <;> cases hstep <;> exact hs k
  | elsewhere name turn =>
    obtain ⟨-, ⟨⟩⟩ := Option.ite_none_left_eq_some.mp hstep
    exact hs k

/-! ## What is counted -/

section

variable {tenant : TenantContext} {session_id language : String} {T id : Uuid}
  (hT : UuidText.cast tenant.tenant_id = some T) (hid : UuidText.cast session_id = some id)

include hT hid

/-- A page that listens has an open row. -/
theorem row_of_listens (h : Sound s) {k : Nat} (hk : s.Listens tenant session_id language k) :
    ∃ r ∈ s.openRows tenant T id language, s.idOf k = some r.listener_id := by
  obtain ⟨g, hg, rfl, hschema, htenant, hsession, rfl, hheld, hnot⟩ := hk
  obtain ⟨r, hr, hof, hclosed⟩ := h.row g hg
  refine ⟨r, mem_openRows.mpr ⟨hschema ▸ hr, ?_, ?_, ?_, hof.language⟩, ?_⟩
  · rw [hof.tenant, hT] at htenant
    exact Option.some.inj htenant
  · rw [hof.session, hid] at hsession
    exact Option.some.inj hsession
  · by_contra hne
    exact hnot (hclosed hne)
  · rw [idOf, hheld]
    exact hof.listener

omit hT hid in
theorem idOf_injective (h : Sound s) : Set.InjOn s.idOf (s.listening tenant session_id language) := by
  intro k hk l hl heq
  obtain ⟨g, hg, rfl, -, -, -, -, hheld, -⟩ := mem_listening.mp hk
  obtain ⟨g', hg', rfl, -, -, -, -, hheld', -⟩ := mem_listening.mp hl
  rw [idOf, idOf, hheld, hheld'] at heq
  rw [h.unique hg hg' heq]

/-- At least the pages that listen are counted. -/
theorem listening_le (h : Sound s) :
    (s.listening tenant session_id language).card ≤ (s.openRows tenant T id language).length := by
  rw [← Finset.card_image_of_injOn (idOf_injective h), ← List.length_map,
    ← List.toFinset_card_of_nodup (openRows_nodup s tenant T id language)]
  apply Finset.card_le_card
  intro x hx
  obtain ⟨k, hk, rfl⟩ := Finset.mem_image.mp hx
  obtain ⟨r, hr, hidOf⟩ := row_of_listens hT hid h (mem_listening.mp hk)
  exact List.mem_toFinset.mpr (List.mem_map.mpr ⟨r, hr, hidOf.symm⟩)

/-- In a settled audience of pages that are as they should be, an open row is that
of a page that listens. -/
theorem listens_of_row (h : Sound s) (hgood : ∀ k, Page.Good (s.pages k)) (hsettled : s.Settled)
    {r : ListenerRow Uuid} (hr : r ∈ s.openRows tenant T id language) :
    ∃ k, s.Listens tenant session_id language k ∧ s.idOf k = some r.listener_id := by
  obtain ⟨hrow, hrT, hrid, hopen, hlanguage⟩ := mem_openRows.mp hr
  obtain ⟨g, hg, hschema, hof⟩ := h.only _ r hrow
  have hgranted : g.pass.listener_id ∈ (s.pages g.page).granted := by
    rcases h.delivered g hg with hreply | hgranted
    · rw [hsettled.1] at hreply
      cases hreply
    · exact hgranted
  have hnot : g.pass.listener_id ∉ (s.pages g.page).left :=
    fun hleft => hsettled.2 g hg hleft r (hschema ▸ hrow) hof hopen
  have hheld := ((hgood g.page).reported _ hgranted).resolve_right hnot
  refine ⟨g.page, ⟨g, hg, rfl, hschema, ?_, ?_, ?_, hheld, hnot⟩, ?_⟩
  · rw [hof.tenant, hT, hrT]
  · rw [hof.session, hid, hrid]
  · rw [← hof.language, hlanguage]
  · rw [idOf, hheld]
    exact hof.listener

theorem listening_eq (h : Sound s) (hgood : ∀ k, Page.Good (s.pages k)) (hsettled : s.Settled) :
    (s.listening tenant session_id language).card = (s.openRows tenant T id language).length := by
  refine le_antisymm (listening_le hT hid h) ?_
  rw [← Finset.card_image_of_injOn (idOf_injective h),
    ← List.length_map (fun r : ListenerRow Uuid => some r.listener_id),
    ← List.toFinset_card_of_nodup (openRows_nodup s tenant T id language)]
  apply Finset.card_le_card
  intro x hx
  obtain ⟨r, hr, rfl⟩ := List.mem_map.mp (List.mem_toFinset.mp hx)
  obtain ⟨k, hk, hidOf⟩ := listens_of_row hT hid h hgood hsettled hr
  exact Finset.mem_image.mpr ⟨k, mem_listening.mpr hk, hidOf⟩

end

/-- What `active_listeners` says of a language. -/
theorem count_eq {tenant : TenantContext} {session_id : String} {counts : List (String × Nat)}
    (hcounts : SessionStore.activeListeners ⟨tenant⟩ (s.db tenant.schema) session_id = .ok counts)
    (language : String) : ∃ T id : Uuid, UuidText.cast tenant.tenant_id = some T ∧
      UuidText.cast session_id = some id ∧
      (counts.lookup language).getD 0 = (s.openRows tenant T id language).length := by
  unfold SessionStore.activeListeners at hcounts
  obtain ⟨T, hT, h⟩ := bind_eq_ok.mp hcounts
  obtain ⟨id, hid, h⟩ := bind_eq_ok.mp h
  cases h
  exact ⟨T, id, SessionStore.uuid_eq_ok.mp hT, SessionStore.uuid_eq_ok.mp hid,
    lookup_countByLanguage _ language⟩

end Audience

variable {app : App} {beacon : Bool} {addresses : Nat → Address}

/-- However late the passes and the notices are, and whether they come at all:
every page that holds a pass for a language, and has not said that it left, is
counted among the listeners of the language. -/
theorem every_page_that_listens_is_counted (scenes : List Scene) (s : Audience Uuid)
    (hrun : (audiences app beacon addresses).run scenes = some s) (tenant : TenantContext)
    (session_id : String) (counts : List (String × Nat))
    (hcounts : SessionStore.activeListeners ⟨tenant⟩ (s.db tenant.schema) session_id = .ok counts)
    (language : String) :
    (s.listening tenant session_id language).card ≤ (counts.lookup language).getD 0 := by
  obtain ⟨T, id, hT, hid, hcount⟩ := Audience.count_eq hcounts language
  rw [hcount]
  exact Audience.listening_le hT hid (Audience.sound_of_run hrun)

/-- When every tap and every answer has come in order at its page, no pass is on
its way and no notice was lost, the listeners that are counted are the pages that
listen, and no others. -/
theorem a_settled_audience_is_counted_exactly (scenes : List Scene) (s : Audience Uuid)
    (hrun : (audiences app beacon addresses).run scenes = some s)
    (horder : (audiences app beacon addresses : Machine (Audience Uuid) Scene).Meets
      (Audience.InOrder beacon) (audiences app beacon addresses).start scenes)
    (hsettled : s.Settled) (tenant : TenantContext) (session_id : String)
    (counts : List (String × Nat))
    (hcounts : SessionStore.activeListeners ⟨tenant⟩ (s.db tenant.schema) session_id = .ok counts)
    (language : String) :
    (counts.lookup language).getD 0 = (s.listening tenant session_id language).card := by
  obtain ⟨T, id, hT, hid, hcount⟩ := Audience.count_eq hcounts language
  rw [← List.append_nil scenes] at horder
  have hgood : ∀ k, Page.Good (s.pages k) :=
    (audiences app beacon addresses).kept_of_meets (P := fun s => ∀ k, Page.Good (s.pages k))
      (fun _ _ _ hs horder hstep => Audience.good_scene hs horder hstep) (fun _ => good_start)
      horder hrun
  rw [hcount, Audience.listening_eq hT hid (Audience.sound_of_run hrun) hgood hsettled]

end

/-! ## Two phones -/

open canonical

def hall : SessionInfo := { keynote with session_id := SessionConfig.keynote.session_id }

def passFor (listener_id : String) : ListenerPass where
  listener_id
  session_id := SessionConfig.keynote.session_id
  language := "fr"
  url := "wss://10.0.0.2"
  token := "hallfr" ++ listener_id
  track_name := "lang-fr"
  is_source := false

def firstPhone : Request := ⟨"10.0.0.7", 1, "11111111-2222-3333-4444-555555555555"⟩

def secondPhone : Request := ⟨"10.0.0.8", 2, "66666666-7777-8888-9999-000000000000"⟩

/-- A phone asks for French, and it is let in. -/
def asks (k : Nat) (request : Request) : List Scene :=
  [.page k (.loaded hall), .page k (.choose (language "fr")), .serve k 0 request]

def lets (k : Nat) (request : Request) : Scene :=
  .deliver ⟨k, 0, SessionConfig.keynote.tenant, passFor request.listener_id⟩

def opening : Scene :=
  .elsewhere SessionConfig.keynote.tenant.schema
    ⟨⟨SessionConfig.keynote.tenant⟩, 0, .createSession .keynote true⟩

/-- The pass of the second phone is lost. -/
def aLostPass : List Scene :=
  opening :: asks 0 firstPhone ++ asks 1 secondPhone ++ [lets 0 firstPhone]

/-- The second phone leaves, and its notice comes. -/
def aNotice : List Scene :=
  opening :: asks 0 firstPhone ++ asks 1 secondPhone ++ [lets 1 secondPhone, lets 0 firstPhone,
    .page 1 .change, .notice 1 5 secondPhone.listener_id SessionConfig.keynote.session_id]

def atTheHall : Nat → Address := fun _ => .session SessionConfig.keynote.session_id

/-- What is counted after some scenes, and how many listen. -/
def countedAfter (scenes : List Scene) : Option (List (String × Nat) × Nat) :=
  ((audiences venue true atTheHall : Machine (Audience String) Scene).run scenes).bind fun s =>
    (SessionStore.activeListeners ⟨SessionConfig.keynote.tenant⟩
      (s.db SessionConfig.keynote.tenant.schema) SessionConfig.keynote.session_id).toOption.map
        fun counts => (counts, (s.listening SessionConfig.keynote.tenant
          SessionConfig.keynote.session_id "fr").card)

theorem aLostPass_counted : countedAfter aLostPass = some ([("fr", 2)], 1) := by decide +kernel

theorem aNotice_counted : countedAfter aNotice = some ([("fr", 1)], 1) := by decide +kernel

theorem every_page_is_counted_after_a_lost_pass : ∃ (s : Audience String) (counts : List (String × Nat)),
    (audiences venue true atTheHall).run aLostPass = some s ∧ counts = [("fr", 2)] ∧
      (s.listening SessionConfig.keynote.tenant SessionConfig.keynote.session_id "fr").card = 1 ∧
      1 ≤ (counts.lookup "fr").getD 0 := by
  obtain ⟨s, hrun, h⟩ := Option.bind_eq_some_iff.mp aLostPass_counted
  obtain ⟨counts, hcounts, h⟩ := Option.map_eq_some_iff.mp h
  rw [toOption_eq_some] at hcounts
  obtain ⟨hvalue, hcard⟩ := Prod.mk.inj h
  have hle := every_page_that_listens_is_counted aLostPass s hrun _ _ counts hcounts "fr"
  rw [hcard] at hle
  exact ⟨s, counts, hrun, hvalue, hcard, hle⟩

theorem a_settled_audience_is_counted_after_a_notice :
    ∃ (s : Audience String) (counts : List (String × Nat)),
      (audiences venue true atTheHall).run aNotice = some s ∧ counts = [("fr", 1)] ∧
        (counts.lookup "fr").getD 0 = (s.listening SessionConfig.keynote.tenant
          SessionConfig.keynote.session_id "fr").card := by
  have horder : (audiences venue true atTheHall : Machine (Audience String) Scene).Meets
      (Audience.InOrder true) (audiences venue true atTheHall).start aNotice := by
    decide +kernel
  have hsettled : ((audiences venue true atTheHall : Machine (Audience String) Scene).run
      aNotice).any (fun s => s.Settled) = true := by
    decide +kernel
  obtain ⟨s, hrun, h⟩ := Option.bind_eq_some_iff.mp aNotice_counted
  obtain ⟨counts, hcounts, h⟩ := Option.map_eq_some_iff.mp h
  rw [toOption_eq_some] at hcounts
  rw [hrun] at hsettled
  exact ⟨s, counts, hrun, (Prod.mk.inj h).1, a_settled_audience_is_counted_exactly aNotice s hrun
    horder (of_decide_eq_true hsettled) _ _ counts hcounts "fr"⟩

end lad_translate.join_page
