-- LiveKit room transport (session/room.py): what the service subscribes to. The
-- server, its events and the handlers of `connect` are one machine, whose runs
-- are all the orders in which tracks come and go, events arrive and `connect`
-- goes on. The fields `requested` and `released` are what the handlers asked
-- for, and the last two count the two log lines of a lost room.
import LadTranslate.Join
import LadTranslate.Machines

open machines

namespace lad_translate.room

open api (sourceTrackName)

/-- A track of another participant, as the SDK knows it. -/
structure RemotePublication where
  sid : Nat
  name : String
  audio : Bool
  subscribed : Bool
  present : Bool
deriving DecidableEq

/-- Where `connect` is: the server has not answered, the answer is on its way
back to the caller, or the sweep is done. -/
inductive Phase
  | outside
  | joined
  | swept
deriving DecidableEq

structure Connection where
  phase : Phase
  publications : List RemotePublication
  next : Nat
  announced : List Nat
  source_track : Option Nat
  source_ready : Bool
  closing : Bool
  requested : List Nat
  released : List Nat
  goodbyes : Nat
  faults : Nat
deriving DecidableEq

/-- What happens next. -/
inductive Signal
  /-- Somebody publishes a track. -/
  | published (name : String) (audio : Bool)
  | unpublished (sid : Nat)
  /-- The server answers `connect`. -/
  | answered
  /-- `connect` returns, and the sweep runs. -/
  | returned
  /-- `track_published` for the oldest track that was announced. -/
  | delivered
  /-- The server sends a track, and `track_subscribed` arrives. -/
  | subscribed (sid : Nat)
  /-- The server stops sending a track. -/
  | unsubscribed (sid : Nat)
  | disconnected
  /-- `close`. -/
  | closed
deriving DecidableEq

namespace Connection

def start : Connection := ⟨.outside, [], 0, [], none, false, false, [], [], 0, 0⟩

/-- Changes the tracks with an id. -/
def alter (c : Connection) (sid : Nat) (f : RemotePublication → RemotePublication) : Connection :=
  { c with publications := c.publications.map fun p => if p.sid = sid then f p else p }

/-- `_subscribe_if_source`: the speaker's track and nothing else. -/
def subscribeIfSource (c : Connection) (p : RemotePublication) : Connection :=
  if p.name ≠ sourceTrackName then c
  else if p.subscribed then c
  else { c with requested := c.requested ++ [p.sid] }

/-- `_on_subscribed`. -/
def onSubscribed (c : Connection) (p : RemotePublication) : Connection :=
  if ¬ p.audio then c
  else if p.name ≠ sourceTrackName then { c with released := c.released ++ [p.sid] }
  else { c with source_track := some p.sid, source_ready := true }

/-- `_on_disconnected`. -/
def onDisconnected (c : Connection) : Connection :=
  let c := { c with source_ready := false }
  if c.closing then { c with goodbyes := c.goodbyes + 1 } else { c with faults := c.faults + 1 }

/-- The sweep of `connect`. -/
def sweep (c : Connection) : Connection :=
  (c.publications.filter (·.present)).foldl subscribeIfSource c

/-- One signal. The server sends the tracks that it was asked for, and with
`auto_subscribe` the others too. -/
def step (auto_subscribe : Bool) (c : Connection) : Signal → Option Connection
  | .published name audio =>
    some { c with
      publications := c.publications ++ [⟨c.next, name, audio, false, true⟩]
      next := c.next + 1
      announced := if c.phase = .outside then c.announced else c.announced ++ [c.next] }
  | .unpublished sid => some (c.alter sid fun p => { p with subscribed := false, present := false })
  | .answered => if c.phase = .outside then some { c with phase := .joined } else none
  | .returned => if c.phase = .joined then some { c.sweep with phase := .swept } else none
  | .delivered =>
    match c.announced with
    | [] => none
    | sid :: announced =>
      (c.publications.find? (·.sid = sid)).map { c with announced }.subscribeIfSource
  | .subscribed sid =>
    (c.publications.find? (·.sid = sid)).bind fun p =>
      if p.present ∧ (auto_subscribe ∨ sid ∈ c.requested) then
        some ((c.alter sid fun p => { p with subscribed := true }).onSubscribed
          { p with subscribed := true })
      else none
  | .unsubscribed sid =>
    if sid ∈ c.released then some (c.alter sid fun p => { p with subscribed := false }) else none
  | .disconnected => some c.onDisconnected
  | .closed => some { c with closing := true }

end Connection

/-- The machine of a connection. `connect` passes `auto_subscribe=False`. -/
def connections (auto_subscribe : Bool) : Machine Connection Signal where
  start := .start
  step := Connection.step auto_subscribe

namespace Connection

variable {c d : Connection} {auto_subscribe : Bool}

/-! ## What the handlers ask for -/

/-- The name and the kind of the tracks with an id. -/
def Names (c : Connection) (sid : Nat) (P : RemotePublication → Prop) : Prop :=
  ∀ p ∈ c.publications, p.sid = sid → P p

/-- What holds in every state of every run. -/
structure Sound (c : Connection) : Prop where
  unique : (c.publications.map (·.sid)).Nodup
  known : ∀ p ∈ c.publications, p.sid < c.next
  requested_known : ∀ sid ∈ c.requested, sid < c.next
  released_known : ∀ sid ∈ c.released, sid < c.next
  source_known : ∀ sid, c.source_track = some sid → sid < c.next
  requested : ∀ sid ∈ c.requested, c.Names sid fun p => p.name = sourceTrackName
  released : ∀ sid ∈ c.released, c.Names sid fun p => p.name ≠ sourceTrackName
  source : ∀ sid, c.source_track = some sid →
    c.Names sid fun p => p.name = sourceTrackName ∧ p.audio = true
  ready : c.source_ready = true → c.source_track ≠ none

/-- After the sweep, each source that is there was asked for, or is announced. -/
def Complete (c : Connection) : Prop :=
  c.phase = .swept → ∀ p ∈ c.publications, p.present = true → p.name = sourceTrackName →
    p.subscribed = true ∨ p.sid ∈ c.requested ∨ p.sid ∈ c.announced

theorem sound_start : Sound start where
  unique := by simp [start]
  known := by simp [start]
  requested_known := by simp [start]
  released_known := by simp [start]
  source_known := by simp [start]
  requested := by simp [start]
  released := by simp [start]
  source := by simp [start]
  ready := by simp [start]

/-- An id has one track. -/
theorem Sound.eq_of_sid (h : Sound c) {p q : RemotePublication} (hp : p ∈ c.publications)
    (hq : q ∈ c.publications) (hsid : q.sid = p.sid) : q = p :=
  List.inj_on_of_nodup_map h.unique hq hp hsid

/-- A new track is nobody's request yet. -/
theorem Sound.published (h : Sound c) (name : String) (audio : Bool) (announced : List Nat) :
    Sound { c with
      publications := c.publications ++ [⟨c.next, name, audio, false, true⟩]
      next := c.next + 1
      announced } := by
  have hnames : ∀ {sid P}, sid < c.next → c.Names sid P →
      Names { c with
        publications := c.publications ++ [⟨c.next, name, audio, false, true⟩]
        next := c.next + 1
        announced } sid P := by
    intro sid P hlt hP p hp hsid
    rcases List.mem_append.mp hp with hp | hp
    · exact hP p hp hsid
    · obtain rfl := List.mem_singleton.mp hp
      exact absurd hsid hlt.ne'
  refine ⟨?_, ?_, fun sid hsid => (h.requested_known sid hsid).trans (Nat.lt_succ_self _),
    fun sid hsid => (h.released_known sid hsid).trans (Nat.lt_succ_self _),
    fun sid hsid => (h.source_known sid hsid).trans (Nat.lt_succ_self _),
    fun sid hsid => hnames (h.requested_known sid hsid) (h.requested sid hsid),
    fun sid hsid => hnames (h.released_known sid hsid) (h.released sid hsid),
    fun sid hsid => hnames (h.source_known sid hsid) (h.source sid hsid), h.ready⟩
  · rw [List.map_append, List.map_cons, List.map_nil, List.nodup_append']
    refine ⟨h.unique, List.nodup_singleton _, ?_⟩
    intro sid hsid hnew
    obtain ⟨p, hp, rfl⟩ := List.mem_map.mp hsid
    exact (h.known p hp).ne (List.mem_singleton.mp hnew)
  · intro p hp
    rcases List.mem_append.mp hp with hp | hp
    · exact (h.known p hp).trans (Nat.lt_succ_self _)
    · obtain rfl := List.mem_singleton.mp hp
      exact Nat.lt_succ_self _

/-- The flags of a track change, and nothing else. -/
def Flags (f : RemotePublication → RemotePublication) : Prop :=
  ∀ p, (f p).sid = p.sid ∧ (f p).name = p.name ∧ (f p).audio = p.audio

theorem mem_alter {sid : Nat} {f : RemotePublication → RemotePublication} (hf : Flags f)
    {q : RemotePublication} (hq : q ∈ (c.alter sid f).publications) :
    ∃ p ∈ c.publications, q.sid = p.sid ∧ q.name = p.name ∧ q.audio = p.audio ∧
      q = if p.sid = sid then f p else p := by
  obtain ⟨p, hp, rfl⟩ := List.mem_map.mp hq
  refine ⟨p, hp, ?_, ?_, ?_, rfl⟩ <;> split
  · exact (hf p).1
  · rfl
  · exact (hf p).2.1
  · rfl
  · exact (hf p).2.2
  · rfl

theorem Sound.alter (h : Sound c) (sid : Nat) {f : RemotePublication → RemotePublication}
    (hf : Flags f) : Sound (c.alter sid f) := by
  refine ⟨?_, ?_, h.requested_known, h.released_known, h.source_known, ?_, ?_, ?_, h.ready⟩
  · have hmap : (c.alter sid f).publications.map (·.sid) = c.publications.map (·.sid) := by
      rw [Connection.alter, List.map_map]
      apply List.map_congr_left
      intro p _
      simp only [Function.comp_apply]
      split
      · exact (hf p).1
      · rfl
    rw [hmap]
    exact h.unique
  · intro q hq
    obtain ⟨p, hp, hsid, -⟩ := mem_alter hf hq
    exact hsid ▸ h.known p hp
  · intro r hr q hq hq'
    obtain ⟨p, hp, hsid, hname, -⟩ := mem_alter hf hq
    exact hname ▸ h.requested r hr p hp (hsid ▸ hq')
  · intro r hr q hq hq'
    obtain ⟨p, hp, hsid, hname, -⟩ := mem_alter hf hq
    exact hname ▸ h.released r hr p hp (hsid ▸ hq')
  · intro r hr q hq hq'
    obtain ⟨p, hp, hsid, hname, haudio, -⟩ := mem_alter hf hq
    rw [hname, haudio]
    exact h.source r hr p hp (hsid ▸ hq')

/-- A source that is there, and was there, is as subscribed as it was. -/
theorem Complete.alter (h : Complete c) (sid : Nat) {f : RemotePublication → RemotePublication}
    (hf : Flags f) (hflags : ∀ p ∈ c.publications, p.sid = sid → (f p).present = true →
      p.name = sourceTrackName → p.present = true ∧ (p.subscribed = true → (f p).subscribed = true)) :
    Complete (c.alter sid f) := by
  intro hswept q hq hpresent hname
  obtain ⟨p, hp, hsid, hname', -, rfl⟩ := mem_alter hf hq
  rw [hname'] at hname
  rw [hsid]
  by_cases hp' : p.sid = sid
  · rw [if_pos hp'] at hpresent ⊢
    obtain ⟨hbefore, hkeeps⟩ := hflags p hp hp' hpresent hname
    exact (h hswept p hp hbefore hname).imp_left hkeeps
  · rw [if_neg hp'] at hpresent ⊢
    exact h hswept p hp hpresent hname

/-- A request for a track of the connection, which is a source track. -/
theorem Sound.subscribeIfSource (h : Sound c) {p : RemotePublication}
    (hp : p ∈ c.publications) : Sound (c.subscribeIfSource p) := by
  unfold Connection.subscribeIfSource
  split
  · exact h
  · rename_i hname
    split
    · exact h
    · refine { h with requested_known := ?_, requested := ?_ }
      · intro sid hsid
        rcases List.mem_append.mp hsid with hsid | hsid
        · exact h.requested_known sid hsid
        · rw [List.mem_singleton.mp hsid]
          exact h.known p hp
      · intro sid hsid
        rcases List.mem_append.mp hsid with hsid | hsid
        · exact h.requested sid hsid
        · intro q hq hq'
          rw [h.eq_of_sid hp hq (hq'.trans (List.mem_singleton.mp hsid))]
          exact not_not.mp hname

/-- Asking for a track changes what is requested alone. -/
theorem subscribeIfSource_eq (c : Connection) (p : RemotePublication) :
    ∃ requested, c.subscribeIfSource p = { c with requested } ∧ c.requested <+: requested ∧
      (p.name = sourceTrackName → p.subscribed = true ∨ p.sid ∈ requested) := by
  unfold Connection.subscribeIfSource
  split
  · rename_i hname
    exact ⟨c.requested, rfl, List.prefix_refl _, fun h => absurd h hname⟩
  · split
    · rename_i hsubscribed
      exact ⟨c.requested, rfl, List.prefix_refl _, fun _ => .inl hsubscribed⟩
    · exact ⟨_, rfl, List.prefix_append _ _, fun _ => .inr (by simp)⟩

/-- The sweep asks for each of some tracks that is a source. -/
theorem sweep_all (ps : List RemotePublication) (h : Sound c)
    (hps : ∀ p ∈ ps, p ∈ c.publications) :
    Sound (ps.foldl Connection.subscribeIfSource c) ∧
    ∃ requested, ps.foldl Connection.subscribeIfSource c = { c with requested } ∧
      c.requested <+: requested ∧
      ∀ p ∈ ps, p.name = sourceTrackName → p.subscribed = true ∨ p.sid ∈ requested := by
  induction ps generalizing c with
  | nil => exact ⟨h, c.requested, rfl, List.prefix_refl _, by simp⟩
  | cons p ps ih =>
    have hnext := h.subscribeIfSource (hps p List.mem_cons_self)
    obtain ⟨requested, heq, hgrown, hasked⟩ := c.subscribeIfSource_eq p
    rw [List.foldl_cons]
    rw [heq] at hnext ⊢
    obtain ⟨hsound, all, hall, hmore, hothers⟩ :=
      ih hnext fun q hq => hps q (List.mem_cons_of_mem _ hq)
    refine ⟨hsound, all, hall, hgrown.trans hmore, fun q hq hname => ?_⟩
    rcases List.mem_cons.mp hq with rfl | hq
    · exact (hasked hname).imp_right fun hmem => hmore.subset hmem
    · exact hothers q hq hname

/-- A track arrived. -/
theorem Sound.onSubscribed (h : Sound c) {p : RemotePublication} (hp : p ∈ c.publications) :
    Sound (c.onSubscribed p) := by
  unfold Connection.onSubscribed
  split
  · exact h
  · rename_i haudio
    split
    · rename_i hname
      refine { h with released_known := ?_, released := ?_ }
      · intro sid hsid
        rcases List.mem_append.mp hsid with hsid | hsid
        · exact h.released_known sid hsid
        · rw [List.mem_singleton.mp hsid]
          exact h.known p hp
      · intro sid hsid
        rcases List.mem_append.mp hsid with hsid | hsid
        · exact h.released sid hsid
        · intro q hq hq'
          rw [h.eq_of_sid hp hq (hq'.trans (List.mem_singleton.mp hsid))]
          exact hname
    · rename_i hname
      refine { h with source_known := ?_, source := ?_, ready := fun _ => by simp }
      · intro sid hsid
        rw [← Option.some.inj hsid]
        exact h.known p hp
      · intro sid hsid q hq hq'
        rw [h.eq_of_sid hp hq (hq'.trans (Option.some.inj hsid).symm)]
        exact ⟨not_not.mp hname, not_not.mp haudio⟩

/-- Every signal keeps a connection sound. -/
theorem sound_step (h : Sound c) {signal : Signal} (hd : c.step auto_subscribe signal = some d) :
    Sound d := by
  cases signal with
  | published name audio =>
    cases hd
    exact h.published name audio _
  | unpublished sid =>
    cases hd
    exact h.alter sid fun _ => ⟨rfl, rfl, rfl⟩
  | answered =>
    simp only [step] at hd
    split at hd
    · cases hd
      exact { h with }
    · cases hd
  | returned =>
    simp only [step] at hd
    split at hd
    · cases hd
      have hswept : Sound c.sweep := (sweep_all _ h fun p hp => (List.mem_filter.mp hp).1).1
      exact { hswept with }
    · cases hd
  | delivered =>
    simp only [step] at hd
    split at hd
    · cases hd
    · rename_i sid announced hannounced
      obtain ⟨p, hfind, rfl⟩ := Option.map_eq_some_iff.mp hd
      have hrest : Sound { c with announced } := { h with }
      exact hrest.subscribeIfSource (List.mem_of_find?_eq_some hfind)
  | subscribed sid =>
    simp only [step] at hd
    obtain ⟨p, hfind, hd⟩ := Option.bind_eq_some_iff.mp hd
    split at hd
    · cases hd
      have hsid : p.sid = sid := by simpa using List.find?_some hfind
      have hsent := h.alter sid (f := fun p => { p with subscribed := true })
        fun _ => ⟨rfl, rfl, rfl⟩
      refine hsent.onSubscribed ?_
      exact List.mem_map.mpr ⟨p, List.mem_of_find?_eq_some hfind, by rw [if_pos hsid]⟩
    · cases hd
  | unsubscribed sid =>
    simp only [step] at hd
    split at hd
    · cases hd
      exact h.alter sid fun _ => ⟨rfl, rfl, rfl⟩
    · cases hd
  | disconnected =>
    cases hd
    unfold onDisconnected
    simp only
    split <;> exact { h with ready := fun hready => by cases hready }
  | closed =>
    cases hd
    exact { h with }

/-- Every signal keeps the requests complete. -/
theorem complete_step (hs : Sound c) (h : Complete c) {signal : Signal}
    (hd : c.step auto_subscribe signal = some d) : Complete d := by
  cases signal with
  | published name audio =>
    cases hd
    intro hswept p hp hpresent hname
    have hinside : c.phase ≠ .outside := by
      have hphase : c.phase = .swept := hswept
      simp [hphase]
    rw [if_neg hinside]
    rcases List.mem_append.mp hp with hp | hp
    · exact (h hswept p hp hpresent hname).imp_right (.imp_right (List.mem_append_left _))
    · obtain rfl := List.mem_singleton.mp hp
      exact .inr (.inr (by simp))
  | unpublished sid =>
    cases hd
    exact h.alter sid (fun _ => ⟨rfl, rfl, rfl⟩) fun p _ _ hpresent => by cases hpresent
  | answered =>
    simp only [step] at hd
    split at hd
    · cases hd
      intro hphase
      cases hphase
    · cases hd
  | returned =>
    simp only [step] at hd
    split at hd
    · cases hd
      obtain ⟨-, requested, heq, -, hall⟩ := sweep_all (c.publications.filter (·.present)) hs
        fun p hp => (List.mem_filter.mp hp).1
      unfold Connection.sweep
      rw [heq]
      intro _ p hp hpresent hname
      exact (hall p (List.mem_filter.mpr ⟨hp, by simpa using hpresent⟩) hname).imp_right .inl
    · cases hd
  | delivered =>
    simp only [step] at hd
    split at hd
    · cases hd
    · rename_i sid announced hannounced
      obtain ⟨q, hfind, rfl⟩ := Option.map_eq_some_iff.mp hd
      obtain ⟨requested, heq, hgrown, hasked⟩ := { c with announced }.subscribeIfSource_eq q
      have hq := List.mem_of_find?_eq_some hfind
      have hsid : q.sid = sid := by simpa using List.find?_some hfind
      rw [heq]
      intro hswept p hp hpresent hname
      rcases h hswept p hp hpresent hname with hdone | hdone | hdone
      · exact .inl hdone
      · exact .inr (.inl (hgrown.subset hdone))
      · rw [hannounced] at hdone
        rcases List.mem_cons.mp hdone with hdone | hdone
        · -- the announcement was of this track
          obtain rfl := hs.eq_of_sid hp hq (hsid.trans hdone.symm)
          exact (hasked hname).imp_right .inl
        · exact .inr (.inr hdone)
  | subscribed sid =>
    simp only [step] at hd
    obtain ⟨q, hfind, hd⟩ := Option.bind_eq_some_iff.mp hd
    split at hd
    · cases hd
      have hsent := h.alter sid (f := fun p => { p with subscribed := true })
        (fun _ => ⟨rfl, rfl, rfl⟩) fun p _ _ hpresent _ => ⟨hpresent, fun _ => rfl⟩
      unfold onSubscribed
      split
      · exact hsent
      · split <;> exact hsent
    · cases hd
  | unsubscribed sid =>
    simp only [step] at hd
    split at hd
    · rename_i hreleased
      cases hd
      refine h.alter sid (fun _ => ⟨rfl, rfl, rfl⟩) fun p hp hsid hpresent hname => ?_
      exact absurd hname (hs.released sid hreleased p hp hsid)
    · cases hd
  | disconnected =>
    cases hd
    unfold onDisconnected
    simp only
    split <;> exact h
  | closed =>
    cases hd
    exact h

/-! ## What the server sends -/

/-- The server sent what it was asked for, and nothing was given back. -/
structure Asked (c : Connection) : Prop where
  subscribed : ∀ p ∈ c.publications, p.subscribed = true → p.sid ∈ c.requested
  released : c.released = []

theorem Asked.subscribeIfSource (h : Asked c) (p : RemotePublication) :
    Asked (c.subscribeIfSource p) := by
  obtain ⟨requested, heq, hgrown, -⟩ := c.subscribeIfSource_eq p
  rw [heq]
  exact ⟨fun q hq hsubscribed => hgrown.subset (h.subscribed q hq hsubscribed), h.released⟩

theorem Asked.alter (h : Asked c) (sid : Nat) {f : RemotePublication → RemotePublication}
    (hf : Flags f) (hflags : ∀ p ∈ c.publications, p.sid = sid → (f p).subscribed = true →
      p.sid ∈ c.requested) : Asked (c.alter sid f) := by
  refine ⟨fun q hq hsubscribed => ?_, h.released⟩
  obtain ⟨p, hp, hsid, -, -, rfl⟩ := mem_alter hf hq
  rw [hsid]
  by_cases hp' : p.sid = sid
  · rw [if_pos hp'] at hsubscribed
    exact hflags p hp hp' hsubscribed
  · rw [if_neg hp'] at hsubscribed
    exact h.subscribed p hp hsubscribed

/-- Without `auto_subscribe`, every signal keeps it so. -/
theorem asked_step (hs : Sound c) (h : Asked c) {signal : Signal}
    (hd : c.step false signal = some d) : Asked d := by
  cases signal with
  | published name audio =>
    cases hd
    refine ⟨fun p hp hsubscribed => ?_, h.released⟩
    rcases List.mem_append.mp hp with hp | hp
    · exact h.subscribed p hp hsubscribed
    · obtain rfl := List.mem_singleton.mp hp
      cases hsubscribed
  | unpublished sid =>
    cases hd
    exact h.alter sid (fun _ => ⟨rfl, rfl, rfl⟩) fun p _ _ hsubscribed => by cases hsubscribed
  | answered =>
    simp only [step] at hd
    split at hd
    · cases hd
      exact { h with }
    · cases hd
  | returned =>
    simp only [step] at hd
    split at hd
    · cases hd
      have hswept : Asked c.sweep := by
        unfold Connection.sweep
        generalize c.publications.filter (·.present) = ps
        induction ps using List.reverseRecOn with
        | nil => exact h
        | append_singleton ps p ih =>
          rw [List.foldl_append]
          exact ih.subscribeIfSource p
      exact { hswept with }
    · cases hd
  | delivered =>
    simp only [step] at hd
    split at hd
    · cases hd
    · rename_i sid announced hannounced
      obtain ⟨p, hfind, rfl⟩ := Option.map_eq_some_iff.mp hd
      have hrest : Asked { c with announced } := { h with }
      exact hrest.subscribeIfSource p
  | subscribed sid =>
    simp only [step] at hd
    obtain ⟨p, hfind, hd⟩ := Option.bind_eq_some_iff.mp hd
    split at hd
    · rename_i hguard
      cases hd
      have hasked : sid ∈ c.requested := by simpa using hguard.2
      have hsent : Asked (c.alter sid fun p => { p with subscribed := true }) :=
        h.alter sid (fun _ => ⟨rfl, rfl, rfl⟩) fun p _ hsid _ => hsid ▸ hasked
      have hsource : p.name = sourceTrackName :=
        hs.requested sid hasked p (List.mem_of_find?_eq_some hfind)
          (by simpa using List.find?_some hfind)
      unfold onSubscribed
      split
      · exact hsent
      · rw [if_neg (not_not.mpr hsource)]
        exact { hsent with }
    · cases hd
  | unsubscribed sid =>
    simp only [step, h.released] at hd
    cases hd
  | disconnected =>
    cases hd
    unfold onDisconnected
    simp only
    split <;> exact { h with }
  | closed =>
    cases hd
    exact { h with }

/-- What holds in every state that a connection reaches. -/
theorem sound_of_run {signals : List Signal} (h : (connections auto_subscribe).run signals = some c) :
    Sound c ∧ Complete c :=
  (connections auto_subscribe).invariant (P := fun c => Sound c ∧ Complete c)
    ⟨sound_start, fun hphase => by cases hphase⟩
    (fun _ _ _ hc hd => ⟨sound_step hc.1 hd, complete_step hc.1 hc.2 hd⟩) ⟨signals, h⟩

theorem asked_of_run {signals : List Signal} (h : (connections false).run signals = some c) :
    Asked c :=
  ((connections false).invariant (P := fun c => Sound c ∧ Asked c)
    ⟨sound_start, by simp [connections, start], rfl⟩
    (fun _ _ _ hc hd => ⟨sound_step hc.1 hd, asked_step hc.1 hc.2 hd⟩) ⟨signals, h⟩).2

/-- In every order of tracks, events and answers, the service gets no track but
those named as the source, it decodes only audio, and once its events are
handled it has asked for every source that is there. -/
theorem the_service_subscribes_to_the_source_alone {signals : List Signal} {c : Connection}
    (h : (connections false).run signals = some c) :
    (∀ p ∈ c.publications, p.subscribed = true ∨ p.sid ∈ c.requested → p.name = sourceTrackName) ∧
    c.released = [] ∧
    (∀ sid, c.source_track = some sid → ∀ p ∈ c.publications, p.sid = sid →
      p.name = sourceTrackName ∧ p.audio = true) ∧
    (c.source_ready = true → c.source_track ≠ none) ∧
    (c.phase = .swept → c.announced = [] → ∀ p ∈ c.publications, p.present = true →
      (p.sid ∈ c.requested ↔ p.name = sourceTrackName)) := by
  obtain ⟨hsound, hcomplete⟩ := sound_of_run h
  have hasked := asked_of_run h
  have hnamed : ∀ p ∈ c.publications, p.subscribed = true ∨ p.sid ∈ c.requested →
      p.name = sourceTrackName := by
    rintro p hp (hsubscribed | hrequested)
    · exact hsound.requested _ (hasked.subscribed p hp hsubscribed) p hp rfl
    · exact hsound.requested _ hrequested p hp rfl
  refine ⟨hnamed, hasked.released, hsound.source, hsound.ready, ?_⟩
  intro hswept hquiet p hp hpresent
  constructor
  · intro hrequested
    exact hnamed p hp (.inr hrequested)
  · intro hname
    rcases hcomplete hswept p hp hpresent hname with hdone | hdone | hdone
    · exact hasked.subscribed p hp hdone
    · exact hdone
    · rw [hquiet] at hdone
      cases hdone

/-- A language track and the speaker's are there before the service, and the
speaker's is sent. -/
def speakerFirst : List Signal :=
  [.published "lang-fr" true, .published "source-audio" true, .answered, .returned, .subscribed 1]

theorem the_service_subscribes_to_the_speaker :
    ∃ c, (connections false).run speakerFirst = some c ∧ c.source_track = some 1 ∧
      c.requested = [1] ∧ c.released = [] ∧
      ∀ p ∈ c.publications, p.present = true → (p.sid ∈ c.requested ↔ p.name = sourceTrackName) := by
  obtain ⟨c, hrun, hstate⟩ : ∃ c, (connections false).run speakerFirst = some c ∧
      c.source_track = some 1 ∧ c.requested = [1] ∧ c.phase = .swept ∧ c.announced = [] :=
    ⟨_, rfl, by decide⟩
  obtain ⟨hsource, hrequested, hswept, hquiet⟩ := hstate
  obtain ⟨-, hreleased, -, -, hall⟩ := the_service_subscribes_to_the_source_alone hrun
  exact ⟨c, hrun, hsource, hrequested, hreleased, hall hswept hquiet⟩

end Connection

end lad_translate.room
