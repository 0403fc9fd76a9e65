-- Lookups of tenants that overlap (db/tenancy.py). A lookup that finds nothing in
-- the cache waits for the database, and meanwhile others come and go, the table
-- changes and entries are dropped. Each tenant's invalidations are counted, so a
-- record carries the count at which it was read.
import LadTranslate.Identifiers
import LadTranslate.Machines

open dicts machines

namespace lad_translate.tenancy

namespace TenantResolver

variable {r : TenantResolver} {tenant_id : String} {record : TenantRecord}

/-! ## The parts of a lookup -/

/-- What a lookup makes of the database's answer. -/
def finish (r : TenantResolver) (stored : ℚ) (tenant_id : String)
    (answer : Except String (Option TenantColumns)) :
    Except ResolverError TenantRecord × TenantResolver :=
  match answer with
  | .error text => (.error (.database text), r)
  | .ok none => (.error (.noTenant tenant_id r.control_schema), r)
  | .ok (some row) =>
    match validated row.schema_name with
    | .error e => (.error (.schema e), r)
    | .ok schema =>
      let record : TenantRecord := ⟨row.id, row.slug, schema, row.is_active⟩
      (.ok record, { r with cache := r.cache.insert tenant_id (stored, record) })

/-- Drop cached entries: one tenant's, or all. -/
def invalidate (r : TenantResolver) : Option String → TenantResolver
  | none => { r with cache := ∅ }
  | some tenant_id => { r with cache := r.cache.erase tenant_id }

/-- A lookup that nothing overlaps is its parts, one after the other. -/
theorem lookup_eq (r : TenantResolver) (now stored : ℚ) (tenant_id : String)
    (answer : Except String (Option TenantColumns)) :
    (r.lookup now stored tenant_id answer).2 =
      match r.cached now tenant_id with
      | some record => (.ok record, r)
      | none => r.finish stored tenant_id answer := by
  unfold lookup
  cases r.cached now tenant_id with
  | some record => rfl
  | none =>
    unfold finish
    rcases answer with text | row
    · rfl
    · cases row with
      | none => rfl
      | some row =>
        simp only
        cases validated row.schema_name <;> rfl

theorem cached_eq_some {now : ℚ} : r.cached now tenant_id = some record ↔
    ∃ stored, r.cache.lookup tenant_id = some (stored, record) ∧ now - stored < r.ttl_s := by
  unfold cached
  cases hentry : r.cache.lookup tenant_id with
  | none => simp
  | some entry =>
    obtain ⟨stored, cached⟩ := entry
    by_cases hfresh : now - stored < r.ttl_s
    · simp [hfresh]
    · simp [hfresh]

/-- A record is cached as it is returned, and an error leaves the resolver as it was. -/
theorem finish_cases (r : TenantResolver) (stored : ℚ) (tenant_id : String)
    (answer : Except String (Option TenantColumns)) :
    (∃ record, (r.finish stored tenant_id answer).1 = .ok record ∧
        (r.finish stored tenant_id answer).2 =
          { r with cache := r.cache.insert tenant_id (stored, record) }) ∨
      ∃ e, (r.finish stored tenant_id answer).1 = .error e ∧
        (r.finish stored tenant_id answer).2 = r := by
  unfold finish
  split
  · exact .inr ⟨_, rfl, rfl⟩
  · exact .inr ⟨_, rfl, rfl⟩
  · split
    · exact .inr ⟨_, rfl, rfl⟩
    · exact .inl ⟨_, rfl, rfl⟩

@[simp] theorem invalidate_ttl_s (r : TenantResolver) (which : Option String) :
    (r.invalidate which).ttl_s = r.ttl_s := by
  cases which <;> rfl

/-- An entry that an invalidation left was there, and is another tenant's. -/
theorem invalidate_lookup {which : Option String} {entry : ℚ × TenantRecord}
    (h : (r.invalidate which).cache.lookup tenant_id = some entry) :
    r.cache.lookup tenant_id = some entry ∧ which ≠ none ∧ which ≠ some tenant_id := by
  cases which with
  | none =>
    rw [invalidate, AList.lookup_empty] at h
    cases h
  | some dropped =>
    by_cases hsame : tenant_id = dropped
    · subst hsame
      rw [invalidate, AList.lookup_erase] at h
      cases h
    · rw [invalidate, AList.lookup_erase_ne hsame] at h
      exact ⟨h, by simp, fun heq => hsame (Option.some.inj heq).symm⟩

end TenantResolver

/-! ## The lookups of a service -/

/-- What the database said, and how often the tenant was invalidated until then. -/
structure Fetched where
  answer : Except String (Option TenantColumns)
  count : Nat

/-- A lookup that waits, and how often its tenant was invalidated before it started. -/
structure Waiting where
  id : Nat
  tenant_id : String
  started : Nat
  fetched : Option Fetched := none

/-- The end of a lookup: what it returned, the count at its start, the count at
which its record was read, and the age of the entry if it came from the cache. -/
structure Answered where
  tenant_id : String
  result : Except ResolverError TenantRecord
  started : Nat
  read : Nat
  age : Option ℚ

/-- A resolver at work. `readAt` goes with the cache. -/
structure Resolving where
  resolver : TenantResolver
  table : String → Except String (Option TenantColumns)
  clock : ℚ := 0
  invalidations : String → Nat := fun _ => 0
  readAt : String → Nat := fun _ => 0
  asked : Nat := 0
  waiting : List Waiting := []
  answers : List Answered := []

inductive Event
  | start (tenant_id : String)
  | fetch (id : Nat)
  | finish (id : Nat)
  | invalidate (which : Option String)
  | change (table : String → Except String (Option TenantColumns))
  | wait (seconds : ℚ)

namespace Resolving

def lookupOf (s : Resolving) (id : Nat) : Option Waiting := s.waiting.find? (·.id = id)

/-- A waiting lookup, with what the table says now. -/
def fetchFor (s : Resolving) (lookup : Waiting) : Waiting :=
  { lookup with fetched := some ⟨s.table lookup.tenant_id, s.invalidations lookup.tenant_id⟩ }

/-- The waiting lookups, once the table is read for one of them. -/
def afterFetch (s : Resolving) (lookup : Waiting) : List Waiting :=
  s.waiting.map fun other => if other.id = lookup.id then s.fetchFor lookup else other

def step (s : Resolving) : Event → Option Resolving
  | .start tenant_id =>
    let started := s.invalidations tenant_id
    match s.resolver.cached s.clock tenant_id with
    | some record => some { s with
        answers := s.answers ++ [{
          tenant_id, result := .ok record, started, read := s.readAt tenant_id
          age := (s.resolver.cache.lookup tenant_id).map fun entry => s.clock - entry.1 }] }
    | none => some { s with
        asked := s.asked + 1
        waiting := s.waiting ++ [{ id := s.asked, tenant_id, started }] }
  | .fetch id => do
    let lookup ← s.lookupOf id
    if lookup.fetched.isSome then none
    else some { s with waiting := s.afterFetch lookup }
  | .finish id => do
    let lookup ← s.lookupOf id
    let fetched ← lookup.fetched
    let (result, resolver) := s.resolver.finish s.clock lookup.tenant_id fetched.answer
    some { s with
      resolver
      readAt := match result with
        | .ok _ => Function.update s.readAt lookup.tenant_id fetched.count
        | .error _ => s.readAt
      waiting := s.waiting.filter (·.id ≠ id)
      answers := s.answers ++ [{
        tenant_id := lookup.tenant_id, result, started := lookup.started
        read := fetched.count, age := none }] }
  | .invalidate which => some { s with
      resolver := s.resolver.invalidate which
      invalidations := fun tenant_id =>
        if which = none ∨ which = some tenant_id then s.invalidations tenant_id + 1
        else s.invalidations tenant_id }
  | .change table => some { s with table }
  | .wait seconds => if 0 ≤ seconds then some { s with clock := s.clock + seconds } else none

/-- The runs of a new resolver over a table. -/
def runs (control_schema : ValidSchema) (ttl_s : ℚ)
    (table : String → Except String (Option TenantColumns)) : Machine Resolving Event :=
  ⟨{ resolver := ⟨control_schema, ttl_s, ∅⟩, table }, step⟩

/-! ## The steps -/

variable {s t : Resolving} {tenant_id : String} {id : Nat} {ttl_s : ℚ}

/-- A lookup ends at once with the cached record, or it waits. -/
theorem start_cases (h : s.step (.start tenant_id) = some t) :
    (∃ stored record, s.resolver.cache.lookup tenant_id = some (stored, record) ∧
        s.clock - stored < s.resolver.ttl_s ∧
        t = { s with answers := s.answers ++ [{
          tenant_id, result := .ok record, started := s.invalidations tenant_id
          read := s.readAt tenant_id, age := some (s.clock - stored) }] }) ∨
      t = { s with
        asked := s.asked + 1
        waiting := s.waiting ++
          [{ id := s.asked, tenant_id, started := s.invalidations tenant_id }] } := by
  simp only [step] at h
  split at h
  · rename_i record hcached
    obtain ⟨stored, hentry, hfresh⟩ := TenantResolver.cached_eq_some.mp hcached
    rw [hentry] at h
    exact .inl ⟨stored, record, hentry, hfresh, (Option.some.inj h).symm⟩
  · exact .inr (Option.some.inj h).symm

theorem mem_afterFetch {lookup other : Waiting} (h : other ∈ s.afterFetch lookup) :
    other = s.fetchFor lookup ∨ other ∈ s.waiting := by
  obtain ⟨old, hold, rfl⟩ := List.mem_map.mp h
  split
  · exact .inl rfl
  · exact .inr hold

/-- The database is read for one lookup. -/
theorem fetch_cases (h : s.step (.fetch id) = some t) :
    ∃ lookup ∈ s.waiting, t = { s with waiting := s.afterFetch lookup } := by
  simp only [step, Option.bind_eq_bind, Option.bind_eq_some_iff] at h
  obtain ⟨lookup, hlookup, h⟩ := h
  split at h
  · cases h
  · exact ⟨lookup, List.mem_of_find?_eq_some hlookup, (Option.some.inj h).symm⟩

/-- A lookup ends with the database's answer, and caches the record it returns. -/
theorem finish_cases (h : s.step (.finish id) = some t) :
    ∃ lookup fetched, s.lookupOf id = some lookup ∧ lookup.fetched = some fetched ∧
      t.clock = s.clock ∧ t.invalidations = s.invalidations ∧
      t.waiting = s.waiting.filter (·.id ≠ id) ∧
      t.answers = s.answers ++ [{
        tenant_id := lookup.tenant_id
        result := (s.resolver.finish s.clock lookup.tenant_id fetched.answer).1
        started := lookup.started, read := fetched.count, age := none }] ∧
      ((∃ record,
          (s.resolver.finish s.clock lookup.tenant_id fetched.answer).1 = .ok record ∧
          t.resolver = { s.resolver with
            cache := s.resolver.cache.insert lookup.tenant_id (s.clock, record) } ∧
          t.readAt = Function.update s.readAt lookup.tenant_id fetched.count) ∨
        ((∃ e, (s.resolver.finish s.clock lookup.tenant_id fetched.answer).1 = .error e) ∧
          t.resolver = s.resolver ∧ t.readAt = s.readAt)) := by
  simp only [step, Option.bind_eq_bind, Option.bind_eq_some_iff] at h
  obtain ⟨lookup, hlookup, fetched, hfetched, h⟩ := h
  obtain rfl := (Option.some.inj h).symm
  refine ⟨lookup, fetched, hlookup, hfetched, rfl, rfl, rfl, rfl, ?_⟩
  rcases s.resolver.finish_cases s.clock lookup.tenant_id fetched.answer with
    ⟨record, hok, hcache⟩ | ⟨e, herror, hsame⟩
  · exact .inl ⟨record, hok, hcache, by simp only [hok]⟩
  · exact .inr ⟨⟨e, herror⟩, hsame, by simp only [herror]⟩

/-! ## What a run keeps -/

/-- The record that a lookup returned was read no sooner than the last
invalidation of its tenant before the lookup started. -/
def IsCurrent (answered : Answered) : Prop :=
  ∀ record, answered.result = .ok record → answered.started ≤ answered.read

/-- The entry that a lookup found was younger than `ttl_s`. -/
def InTime (ttl_s : ℚ) (answered : Answered) : Prop := ∀ age, answered.age = some age → age < ttl_s

/-- What every run keeps: no entry is from the future, and a lookup reads the
database after its start. -/
structure Sound (ttl_s : ℚ) (s : Resolving) : Prop where
  ttl : s.resolver.ttl_s = ttl_s
  past : ∀ tenant_id entry, s.resolver.cache.lookup tenant_id = some entry → entry.1 ≤ s.clock
  started : ∀ lookup ∈ s.waiting, lookup.started ≤ s.invalidations lookup.tenant_id
  fetched : ∀ lookup ∈ s.waiting, ∀ fetched, lookup.fetched = some fetched →
    lookup.started ≤ fetched.count
  inTime : ∀ answered ∈ s.answers, InTime ttl_s answered

theorem sound_start (hs : Sound ttl_s s) (h : s.step (.start tenant_id) = some t) :
    Sound ttl_s t := by
  rcases start_cases h with ⟨stored, record, -, hfresh, rfl⟩ | rfl
  · refine ⟨hs.ttl, hs.past, hs.started, hs.fetched, ?_⟩
    refine List.forall_mem_append.mpr ⟨hs.inTime, List.forall_mem_singleton.mpr ?_⟩
    intro age hage
    cases hage
    exact hs.ttl ▸ hfresh
  · refine ⟨hs.ttl, hs.past, ?_, ?_, hs.inTime⟩
    · exact List.forall_mem_append.mpr ⟨hs.started, List.forall_mem_singleton.mpr le_rfl⟩
    · refine List.forall_mem_append.mpr ⟨hs.fetched, List.forall_mem_singleton.mpr ?_⟩
      intro fetched hfetched
      cases hfetched

theorem sound_finish (hs : Sound ttl_s s) (h : s.step (.finish id) = some t) : Sound ttl_s t := by
  obtain ⟨lookup, fetched, -, -, hclock, hcounts, hwaiting, hanswers, hcache⟩ := finish_cases h
  refine ⟨?_, ?_, ?_, ?_, ?_⟩
  · rcases hcache with ⟨record, -, hresolver, -⟩ | ⟨-, hresolver, -⟩
    · rw [hresolver]
      exact hs.ttl
    · rw [hresolver]
      exact hs.ttl
  · intro tenant_id entry hentry
    rw [hclock]
    rcases hcache with ⟨record, -, hresolver, -⟩ | ⟨-, hresolver, -⟩
    · rw [hresolver] at hentry
      by_cases hsame : tenant_id = lookup.tenant_id
      · subst hsame
        rw [AList.lookup_insert] at hentry
        cases hentry
        exact le_rfl
      · rw [AList.lookup_insert_ne hsame] at hentry
        exact hs.past tenant_id entry hentry
    · exact hs.past tenant_id entry (hresolver ▸ hentry)
  · intro other hmem
    rw [hcounts]
    exact hs.started other (List.mem_of_mem_filter (hwaiting ▸ hmem))
  · intro other hmem
    exact hs.fetched other (List.mem_of_mem_filter (hwaiting ▸ hmem))
  · rw [hanswers]
    refine List.forall_mem_append.mpr ⟨hs.inTime, List.forall_mem_singleton.mpr ?_⟩
    intro age hage
    cases hage

theorem sound_step {e : Event} (hs : Sound ttl_s s) (h : s.step e = some t) : Sound ttl_s t := by
  cases e with
  | start tenant_id => exact sound_start hs h
  | fetch id =>
    obtain ⟨lookup, hlookup, rfl⟩ := fetch_cases h
    refine ⟨hs.ttl, hs.past, ?_, ?_, hs.inTime⟩
    · intro other hmem
      rcases mem_afterFetch hmem with rfl | hold
      · exact hs.started lookup hlookup
      · exact hs.started other hold
    · intro other hmem fetched hfetched
      rcases mem_afterFetch hmem with rfl | hold
      · cases hfetched
        exact hs.started lookup hlookup
      · exact hs.fetched other hold fetched hfetched
  | finish id => exact sound_finish hs h
  | invalidate which =>
    cases h
    refine ⟨?_, ?_, ?_, hs.fetched, hs.inTime⟩
    · exact (s.resolver.invalidate_ttl_s which).trans hs.ttl
    · intro tenant_id entry hentry
      exact hs.past tenant_id entry (TenantResolver.invalidate_lookup hentry).1
    · intro lookup hmem
      have hstarted := hs.started lookup hmem
      simp only
      split <;> omega
  | change table =>
    cases h
    exact ⟨hs.ttl, hs.past, hs.started, hs.fetched, hs.inTime⟩
  | wait seconds =>
    simp only [step] at h
    split at h
    · cases h
      refine ⟨hs.ttl, ?_, hs.started, hs.fetched, hs.inTime⟩
      intro tenant_id entry hentry
      have hpast := hs.past tenant_id entry hentry
      simp only
      linarith
    · cases h

theorem sound_run {control_schema : ValidSchema}
    {table : String → Except String (Option TenantColumns)} {events : List Event}
    (h : (runs control_schema ttl_s table).run events = some s) : Sound ttl_s s := by
  refine (runs control_schema ttl_s table).invariant (P := Sound ttl_s) ?_
    (fun _ _ _ hs hstep => sound_step hs hstep) ⟨events, h⟩
  refine ⟨rfl, ?_, by simp [runs], by simp [runs], by simp [runs]⟩
  intro tenant_id entry hentry
  rw [runs, AList.lookup_empty] at hentry
  cases hentry

/-! ## Lookups that are overtaken -/

/-- The lookup is about to cache a record that was read before an invalidation
of its tenant. -/
def Overtaken (s : Resolving) (id : Nat) : Prop :=
  ∃ lookup fetched record, s.lookupOf id = some lookup ∧ lookup.fetched = some fetched ∧
    (s.resolver.finish s.clock lookup.tenant_id fetched.answer).1 = .ok record ∧
    fetched.count < s.invalidations lookup.tenant_id

/-- Every record of the cache was read after the last invalidation of its tenant. -/
def CacheIsCurrent (s : Resolving) : Prop :=
  ∀ tenant_id entry, s.resolver.cache.lookup tenant_id = some entry →
    s.invalidations tenant_id ≤ s.readAt tenant_id

/-- A step that caches nothing overtaken leaves the cache current. -/
theorem current_step {e : Event} (hcurrent : CacheIsCurrent s)
    (hover : ∀ id, e = .finish id → ¬ Overtaken s id) (h : s.step e = some t) :
    CacheIsCurrent t := by
  cases e with
  | start tenant_id => rcases start_cases h with ⟨_, _, -, -, rfl⟩ | rfl <;> exact hcurrent
  | fetch id =>
    obtain ⟨lookup, -, rfl⟩ := fetch_cases h
    exact hcurrent
  | finish id =>
    obtain ⟨lookup, fetched, hlookup, hfetched, -, hcounts, -, -, hcache⟩ := finish_cases h
    intro tenant_id entry hentry
    rw [hcounts]
    rcases hcache with ⟨record, hok, hresolver, hread⟩ | ⟨-, hresolver, hread⟩
    · rw [hresolver] at hentry
      rw [hread]
      by_cases hsame : tenant_id = lookup.tenant_id
      · subst hsame
        rw [Function.update_self]
        by_contra hlt
        exact hover id rfl ⟨lookup, fetched, record, hlookup, hfetched, hok, Nat.lt_of_not_le hlt⟩
      · rw [AList.lookup_insert_ne hsame] at hentry
        rw [Function.update_of_ne hsame]
        exact hcurrent tenant_id entry hentry
    · rw [hread]
      exact hcurrent tenant_id entry (hresolver ▸ hentry)
  | invalidate which =>
    cases h
    intro tenant_id entry hentry
    obtain ⟨hold, hall, hone⟩ := TenantResolver.invalidate_lookup hentry
    simp only [hall, hone, or_self, if_false]
    exact hcurrent tenant_id entry hold
  | change table =>
    cases h
    exact hcurrent
  | wait seconds =>
    simp only [step] at h
    split at h
    · cases h
      exact hcurrent
    · cases h

/-- A step adds an answer that is current, where the cache is, or answers nothing
from it. -/
theorem answers_step {e : Event} (hs : Sound ttl_s s)
    (hcurrent : 0 < ttl_s → CacheIsCurrent s)
    (hanswers : ∀ answered ∈ s.answers, IsCurrent answered) (h : s.step e = some t) :
    ∀ answered ∈ t.answers, IsCurrent answered := by
  cases e with
  | start tenant_id =>
    rcases start_cases h with ⟨stored, record, hentry, hfresh, rfl⟩ | rfl
    · -- an entry that is fresh makes ttl_s positive
      have hpast := hs.past tenant_id _ hentry
      rw [hs.ttl] at hfresh
      have hpositive : 0 < ttl_s := by
        simp only at hpast
        linarith
      refine List.forall_mem_append.mpr ⟨hanswers, List.forall_mem_singleton.mpr ?_⟩
      exact fun _ _ => hcurrent hpositive tenant_id _ hentry
    · exact hanswers
  | fetch id =>
    obtain ⟨lookup, -, rfl⟩ := fetch_cases h
    exact hanswers
  | finish id =>
    obtain ⟨lookup, fetched, hlookup, hfetched, -, -, -, hadded, -⟩ := finish_cases h
    rw [hadded]
    refine List.forall_mem_append.mpr ⟨hanswers, List.forall_mem_singleton.mpr ?_⟩
    exact fun _ _ => hs.fetched lookup (List.mem_of_find?_eq_some hlookup) fetched hfetched
  | invalidate which =>
    cases h
    exact hanswers
  | change table =>
    cases h
    exact hanswers
  | wait seconds =>
    simp only [step] at h
    split at h
    · cases h
      exact hanswers
    · cases h

/-- A lookup that starts right after an overtaken one has ended is answered with
what that one read. -/
theorem overtaken_is_served {id : Nat} (httl : 0 < s.resolver.ttl_s) (hover : Overtaken s id) :
    ∃ t u tenant_id answered, s.step (.finish id) = some t ∧ t.step (.start tenant_id) = some u ∧
      answered ∈ u.answers ∧ ¬ IsCurrent answered := by
  obtain ⟨lookup, fetched, record, hlookup, hfetched, hok, hlt⟩ := hover
  obtain ⟨t, ht⟩ : ∃ t, s.step (.finish id) = some t := by
    simp only [step, hlookup, hfetched, Option.bind_eq_bind, Option.bind_some]
    exact ⟨_, rfl⟩
  obtain ⟨lookup', fetched', hlookup', hfetched', hclock, hcounts, -, -, hcache⟩ := finish_cases ht
  rw [hlookup] at hlookup'
  cases hlookup'
  rw [hfetched] at hfetched'
  cases hfetched'
  rcases hcache with ⟨record', -, hresolver, hread⟩ | ⟨⟨e, herror⟩, -, -⟩
  · have hentry : t.resolver.cache.lookup lookup.tenant_id = some (s.clock, record') := by
      rw [hresolver]
      exact AList.lookup_insert _
    have hcached : t.resolver.cached t.clock lookup.tenant_id = some record' := by
      refine TenantResolver.cached_eq_some.mpr ⟨s.clock, hentry, ?_⟩
      rw [hclock, hresolver, sub_self]
      exact httl
    refine ⟨t, _, lookup.tenant_id, _, ht, by simp only [step, hcached]; rfl,
      List.mem_append_right _ (List.mem_singleton_self _), ?_⟩
    intro hcurrent
    have hle := hcurrent record' rfl
    rw [hcounts, hread, Function.update_self] at hle
    exact absurd hle (Nat.not_le.mpr hlt)
  · rw [hok] at herror
    cases herror

end Resolving

/-! ## No stale record -/

/-- At each time of a run, what the lookups returned, and what a lookup would
return that starts then, is current, and from no entry of `ttl_s` or more. -/
def NothingStale (control_schema : ValidSchema) (ttl_s : ℚ)
    (table : String → Except String (Option TenantColumns)) (events : List Event) : Prop :=
  ∀ before after s, events = before ++ after →
    (Resolving.runs control_schema ttl_s table).run before = some s →
    (∀ answered ∈ s.answers, Resolving.IsCurrent answered ∧ Resolving.InTime ttl_s answered) ∧
    ∀ tenant_id t, s.step (.start tenant_id) = some t →
      ∀ answered ∈ t.answers, Resolving.IsCurrent answered ∧ Resolving.InTime ttl_s answered

/-- No lookup caches what it read before an invalidation of its tenant. -/
def NoneOvertaken (control_schema : ValidSchema) (ttl_s : ℚ)
    (table : String → Except String (Option TenantColumns)) (events : List Event) : Prop :=
  ∀ before id after s, events = before ++ .finish id :: after →
    (Resolving.runs control_schema ttl_s table).run before = some s → ¬ s.Overtaken id

/-- Nothing stale is returned exactly when nothing is served from the cache at
all, or no lookup is overtaken by an invalidation. -/
theorem nothing_stale_iff_none_overtaken (control_schema : ValidSchema) (ttl_s : ℚ)
    (table : String → Except String (Option TenantColumns)) (events : List Event) :
    NothingStale control_schema ttl_s table events ↔
      (0 < ttl_s → NoneOvertaken control_schema ttl_s table events) := by
  constructor
  · intro hnothing httl before id after s hevents hrun hover
    have hsound := Resolving.sound_run hrun
    obtain ⟨t, u, tenant_id, answered, hfinish, hstart, hmem, hstale⟩ :=
      Resolving.overtaken_is_served (hsound.ttl ▸ httl) hover
    have hrun' : (Resolving.runs control_schema ttl_s table).run (before ++ [.finish id]) = some t :=
      (Resolving.runs control_schema ttl_s table).run_snoc_some.mpr ⟨s, hrun, hfinish⟩
    have hserved := (hnothing (before ++ [.finish id]) after t (by simp [hevents]) hrun').2
    exact hstale (hserved tenant_id u hstart answered hmem).1
  · intro hnone before after s hevents hrun
    have hkept : (0 < ttl_s → s.CacheIsCurrent) ∧
        ∀ answered ∈ s.answers, Resolving.IsCurrent answered := by
      induction before using List.reverseRecOn generalizing after s with
      | nil =>
        cases hrun
        refine ⟨?_, by simp [Resolving.runs]⟩
        intro _ tenant_id entry hentry
        exact Nat.zero_le _
      | append_singleton before e ih =>
        obtain ⟨u, hu, hstep⟩ := (Resolving.runs control_schema ttl_s table).run_snoc_some.mp hrun
        rw [List.append_assoc, List.singleton_append] at hevents
        obtain ⟨hcurrent, hanswers⟩ := ih (e :: after) u hevents hu
        refine ⟨?_, Resolving.answers_step (Resolving.sound_run hu) hcurrent hanswers hstep⟩
        intro httl
        apply Resolving.current_step (hcurrent httl) ?_ hstep
        rintro id rfl
        exact hnone httl before id after u hevents hu
    have hsound := Resolving.sound_run hrun
    refine ⟨fun answered hmem => ⟨hkept.2 answered hmem, hsound.inTime answered hmem⟩, ?_⟩
    intro tenant_id t hstart answered hmem
    exact ⟨Resolving.answers_step hsound hkept.1 hkept.2 hstart answered hmem,
      (Resolving.sound_step hsound hstart).inTime answered hmem⟩

/-! ## A tenant that is deactivated -/

theorem directory_valid : validateSchema "directory" = .ok "directory" := by decide +kernel

/-- One tenant. -/
def oneTenant (is_active : Bool) (_ : String) : Except String (Option TenantColumns) :=
  .ok (some { id := "t", slug := "acme", schema_name := "acme", is_active })

/-- The tenant is deactivated, and its entry dropped, while a lookup has the old
row in its hands. Then another lookup starts. -/
def deactivated : List Event := [.start "t", .fetch 0, .change (oneTenant false),
  .invalidate (some "t"), .finish 0, .start "t"]

theorem deactivated_evaluated :
    ((Resolving.runs ⟨"directory", directory_valid⟩ 300 (oneTenant true)).run deactivated).map
      (fun s => s.answers.map fun answered =>
        (answered.started, answered.read, answered.result.toOption.map (·.is_active))) =
      some [(0, 0, some true), (1, 0, some true)] := by
  decide +kernel

/-- The second lookup returns the tenant as active. -/
theorem an_overtaken_record_is_returned :
    ¬ NothingStale ⟨"directory", directory_valid⟩ 300 (oneTenant true) deactivated := by
  intro hnothing
  obtain ⟨s, hrun, hanswers⟩ := Option.map_eq_some_iff.mp deactivated_evaluated
  have hmem : (1, 0, some true) ∈ s.answers.map fun answered =>
      (answered.started, answered.read, answered.result.toOption.map (·.is_active)) := by
    rw [hanswers]
    simp
  obtain ⟨answered, hanswered, heq⟩ := List.mem_map.mp hmem
  simp only [Prod.mk.injEq, Option.map_eq_some_iff] at heq
  obtain ⟨hstarted, hread, record, hresult, -⟩ := heq
  have hcurrent := ((hnothing deactivated [] s (List.append_nil _).symm hrun).1 answered hanswered).1
  have hle := hcurrent record (fallible.toOption_eq_some.mp hresult)
  omega

end lad_translate.tenancy
