-- Where the seconds of a phrase go (obs/latency.py): the four stages between the
-- speaker's last word and the room. A phrase is published only when it came through
-- all of them, so the stages of a report add up to what the audience waited, in every
-- run of a session (session/pipeline.py).
import LadTranslate.Metering

open dicts

namespace lad_translate.latency

/-! ## The stages of one phrase -/

/-- The seconds that a phrase spent in each stage. -/
structure StageTimes where
  chunker : ℚ
  translate : ℚ
  tts : ℚ
  publish : ℚ

namespace StageTimes

def total (p : StageTimes) : ℚ := p.chunker + p.translate + p.tts + p.publish

def labels : List String := ["chunker", "translate", "tts", "publish"]

def labelled (p : StageTimes) : List (String × ℚ) :=
  [("chunker", p.chunker), ("translate", p.translate), ("tts", p.tts), ("publish", p.publish)]

def seconds (label : String) (p : StageTimes) : Option ℚ := p.labelled.lookup label

theorem labelled_keys (p : StageTimes) : p.labelled.map Prod.fst = labels := rfl

theorem labels_nodup : labels.Nodup := by decide

/-- A label is a stage of every phrase, or of none. -/
theorem seconds_cases (label : String) :
    (label ∈ labels ∧ ∃ f : StageTimes → ℚ, ∀ p, seconds label p = some (f p)) ∨
      (label ∉ labels ∧ ∀ p, seconds label p = none) := by
  by_cases hlabel : label ∈ labels
  · refine .inl ⟨hlabel, ?_⟩
    simp only [labels, List.mem_cons, List.not_mem_nil, or_false] at hlabel
    rcases hlabel with rfl | rfl | rfl | rfl
    · exact ⟨chunker, fun p => rfl⟩
    · exact ⟨translate, fun p => rfl⟩
    · exact ⟨tts, fun p => rfl⟩
    · exact ⟨publish, fun p => rfl⟩
  · refine .inr ⟨hlabel, fun p => ?_⟩
    rw [seconds, List.lookup_eq_none_iff]
    intro q hq
    have hmem : q.1 ∈ labels := p.labelled_keys ▸ List.mem_map_of_mem hq
    simpa using fun heq : label = q.1 => hlabel (heq ▸ hmem)

/-- The seconds of a stage, of the phrases from some place on. -/
theorem filterMap_drop (label : String) (parts : List StageTimes) (n : Nat) :
    (parts.drop n).filterMap (seconds label) =
      if label ∈ labels then (parts.filterMap (seconds label)).drop n else [] := by
  rcases seconds_cases label with ⟨hlabel, f, hf⟩ | ⟨hlabel, hnone⟩
  · have hmap : ∀ l : List StageTimes, l.filterMap (seconds label) = l.map f := fun l => by
      rw [← List.filterMap_eq_map]
      exact List.filterMap_congr fun p _ => hf p
    rw [if_pos hlabel, hmap, hmap, List.map_drop]
  · rw [if_neg hlabel, List.filterMap_eq_nil_iff]
    exact fun p _ => hnone p

theorem length_seconds {label : String} (hlabel : label ∈ labels) (parts : List StageTimes) :
    (parts.filterMap (seconds label)).length = parts.length := by
  rcases seconds_cases label with ⟨-, f, hf⟩ | ⟨hno, -⟩
  · rw [List.filterMap_congr fun p _ => hf p, List.filterMap_eq_map', List.length_map]
  · exact absurd hlabel hno

/-- The stages of all phrases add up to their totals. -/
theorem sum_labels (parts : List StageTimes) :
    (labels.map fun label => (parts.filterMap (seconds label)).sum).sum =
      (parts.map total).sum := by
  induction parts with
  | nil => simp [labels]
  | cons p parts ih =>
    simp only [labels, List.map_cons, List.map_nil, List.sum_cons, List.sum_nil] at ih ⊢
    have hcons : ∀ label v, seconds label p = some v →
        ((p :: parts).filterMap (seconds label)).sum =
          v + (parts.filterMap (seconds label)).sum := fun label v hv => by
      rw [List.filterMap_cons, hv, List.sum_cons]
    rw [hcons "chunker" p.chunker rfl, hcons "translate" p.translate rfl, hcons "tts" p.tts rfl,
      hcons "publish" p.publish rfl, ← ih, total]
    ring

end StageTimes

/-! ## The stages of a language -/

/-- The times of the language, and the times of its stages, are those of the same
phrases. -/
def LatencyRecorder.Adds (r : LatencyRecorder) (l : String) : Prop :=
  ∃ parts : List StageTimes, (r.g2g.lookup l).getD [] = parts.map StageTimes.total ∧
    ∀ label, (((r.stages.lookup l).getD ∅).lookup label).getD [] =
      parts.filterMap (StageTimes.seconds label)

/-- A trace with every mark has every stage. -/
theorem ChunkTrace.breakdown_eq {trace : ChunkTrace} {committed translated heard now : ℚ}
    (hcommitted : trace.marks.lookup .committed = some committed)
    (htranslated : trace.marks.lookup .translated = some translated)
    (hheard : trace.marks.lookup .ttsFirstAudio = some heard)
    (hpublished : trace.marks.lookup .published = some now) :
    ∃ p : StageTimes, trace.breakdown = p.labelled ∧ trace.glassToGlass = some p.total := by
  refine ⟨⟨committed - trace.audio_end_wall, translated - committed, heard - translated,
    now - heard⟩, ?_, ?_⟩
  · simp [ChunkTrace.breakdown, ChunkTrace.between, hcommitted, htranslated, hheard, hpublished,
      StageTimes.labelled]
  · rw [ChunkTrace.glassToGlass, hpublished, Option.map_some, Option.some.injEq, StageTimes.total]
    ring

namespace LatencyRecorder

/-- The samples of a phrase that came through every stage. -/
theorem adds_close {r : LatencyRecorder} {trace : ChunkTrace} {p : StageTimes}
    (hbreakdown : trace.breakdown = p.labelled) (htotal : trace.glassToGlass = some p.total)
    (h : ∀ l, r.Adds l) (l : String) : (r.close trace).Adds l := by
  unfold close
  rw [htotal]
  simp only
  by_cases hl : l = trace.language
  · subst hl
    obtain ⟨parts, htimes, hstages⟩ := h trace.language
    refine ⟨(parts ++ [p]).drop ((parts ++ [p]).length - r.sample_cap), ?_, fun label => ?_⟩
    · simp only [AList.lookup_insert, Option.getD_some]
      rw [append, htimes, List.map_drop, List.map_append]
      simp
    · simp only [AList.lookup_insert, Option.getD_some]
      rw [hbreakdown, StageTimes.filterMap_drop]
      have hupdates := lookup_updates
        (fun (old : Option (List ℚ)) (seconds : ℚ) => r.append (old.getD []) seconds)
        p.labelled (p.labelled_keys ▸ StageTimes.labels_nodup)
        ((r.stages.lookup trace.language).getD ∅) label
      refine (congrArg (·.getD []) hupdates).trans ?_
      rcases StageTimes.seconds_cases label with ⟨hlabel, f, hf⟩ | ⟨hlabel, hnone⟩
      · rw [if_pos hlabel]
        have hone : p.labelled.lookup label = some (f p) := hf p
        simp only [hone, Option.getD_some]
        have hlength := StageTimes.length_seconds hlabel parts
        rw [append, hstages, List.filterMap_append, List.filterMap_cons, hf p, List.filterMap_nil,
          List.length_append, List.length_append, hlength]
        rfl
      · rw [if_neg hlabel]
        have hone : p.labelled.lookup label = none := hnone p
        simp only [hone]
        rw [hstages, List.filterMap_eq_nil_iff]
        exact fun q _ => hnone q
  · obtain ⟨parts, htimes, hstages⟩ := h l
    refine ⟨parts, ?_, fun label => ?_⟩
    · rw [AList.lookup_insert_ne hl]
      exact htimes
    · rw [AList.lookup_insert_ne hl]
      exact hstages label

variable {r r' : LatencyRecorder} {id i : Nat} {l language : String} {stages : List Stage}

/-- The account reads only the samples. -/
theorem Adds.of_eq (h : r.Adds l) (htimes : r'.g2g = r.g2g) (hstages : r'.stages = r.stages) :
    r'.Adds l := by
  unfold Adds
  rw [htimes, hstages]
  exact h

theorem adds_fresh (slo_seconds : ℚ) (l : String) : (fresh slo_seconds).Adds l :=
  ⟨[], rfl, fun _ => rfl⟩

theorem Adds.mark (h : r.Adds l) {stage : Stage} (hstage : stage ≠ .published) (t_wall : ℚ) :
    (r.mark id language stage t_wall).Adds l := by
  obtain ⟨open_chunks, heq, -⟩ := r.mark_frame id language hstage t_wall
  rw [heq]
  exact h.of_eq rfl rfl

/-- The labels with samples are the stages, when there are phrases. -/
theorem labels_perm {d : Dict String (List ℚ)} {parts : List StageTimes} (hparts : parts ≠ [])
    (hstages : ∀ label, (d.lookup label).getD [] = parts.filterMap (StageTimes.seconds label)) :
    ((d.entries.filter (·.2 ≠ [])).map (·.1)).Perm StageTimes.labels := by
  refine (List.perm_ext_iff_of_nodup ?_ StageTimes.labels_nodup).mpr fun label => ?_
  · exact (List.filter_sublist.map _).nodup (AList.keys_nodup d)
  constructor
  · intro hmem
    obtain ⟨entry, hentry, rfl⟩ := List.mem_map.mp hmem
    obtain ⟨hentry, hsome⟩ := List.mem_filter.mp hentry
    have hsamples := hstages entry.1
    rw [AList.mem_lookup_iff.mpr hentry, Option.getD_some] at hsamples
    rcases StageTimes.seconds_cases entry.1 with ⟨hlabel, -⟩ | ⟨-, hnone⟩
    · exact hlabel
    · rw [List.filterMap_eq_nil_iff.mpr fun p _ => hnone p] at hsamples
      exact absurd hsamples (by simpa using hsome)
  · intro hlabel
    have hsamples := hstages label
    have hsome : parts.filterMap (StageTimes.seconds label) ≠ [] := by
      rw [← List.length_pos_iff, StageTimes.length_seconds hlabel]
      exact List.length_pos_iff.mpr hparts
    cases hentry : d.lookup label with
    | none =>
      rw [hentry] at hsamples
      exact absurd hsamples.symm hsome
    | some samples =>
      rw [hentry, Option.getD_some] at hsamples
      refine List.mem_map.mpr ⟨⟨label, samples⟩, List.mem_filter.mpr ⟨?_, ?_⟩, rfl⟩
      · exact AList.mem_lookup_iff.mp hentry
      · simpa [hsamples] using hsome

/-- What `stats` says of a language whose times add up. -/
theorem Adds.stats (h : r.Adds l) (hcount : (r.stats l).count ≠ 0) :
    ((r.stats l).stage_means.map Prod.fst).Perm StageTimes.labels ∧
      ((r.stats l).stage_means.map Prod.snd).sum =
        ((r.g2g.lookup l).getD []).sum / (r.stats l).count := by
  obtain ⟨parts, htimes, hstages⟩ := h
  have hlength : (r.stats l).count = parts.length := by
    rw [← List.length_map (f := StageTimes.total), ← htimes]
    rfl
  have hparts : parts ≠ [] := fun hnone => hcount (by rw [hlength, hnone, List.length_nil])
  have hlabels := labels_perm hparts hstages
  set kept := ((r.stages.lookup l).getD ∅).entries.filter (·.2 ≠ []) with hkept
  have hmeans : (r.stats l).stage_means = kept.map fun entry =>
      (entry.1, entry.2.sum / (entry.2.length : ℚ)) := rfl
  have hmean : ∀ entry ∈ kept, entry.2.sum / (entry.2.length : ℚ) =
      (parts.filterMap (StageTimes.seconds entry.1)).sum / parts.length := by
    intro entry hentry
    have hlabel := hlabels.subset (List.mem_map_of_mem hentry)
    have hsamples := hstages entry.1
    rw [AList.mem_lookup_iff.mpr (List.mem_filter.mp hentry).1, Option.getD_some] at hsamples
    rw [hsamples, StageTimes.length_seconds hlabel]
  refine ⟨?_, ?_⟩
  · rw [hmeans, List.map_map]
    exact hlabels
  · calc ((r.stats l).stage_means.map Prod.snd).sum
        = (kept.map fun entry => entry.2.sum / (entry.2.length : ℚ)).sum := by
          rw [hmeans, List.map_map]
          rfl
      _ = ((kept.map (·.1)).map fun label =>
            (parts.filterMap (StageTimes.seconds label)).sum / (parts.length : ℚ)).sum := by
          rw [List.map_map]
          exact congrArg List.sum (List.map_congr_left hmean)
      _ = (StageTimes.labels.map fun label =>
            (parts.filterMap (StageTimes.seconds label)).sum / (parts.length : ℚ)).sum :=
          (hlabels.map _).sum_eq
      _ = (StageTimes.labels.map fun label =>
            (parts.filterMap (StageTimes.seconds label)).sum).sum / (parts.length : ℚ) := by
          simp only [div_eq_mul_inv, List.sum_map_mul_right]
      _ = ((r.g2g.lookup l).getD []).sum / ((r.stats l).count : ℚ) := by
          rw [StageTimes.sum_labels, htimes, hlength]

/-! ## The marks of an open trace -/

/-- The trace of the chunk in the language is open, and has these marks. -/
def Bears (r : LatencyRecorder) (id : Nat) (l : String) (stages : List Stage) : Prop :=
  ∃ trace, r.open_chunks.lookup (id, l) = some trace ∧
    ∀ stage ∈ stages, (trace.marks.lookup stage).isSome

theorem Bears.mem (h : r.Bears id l stages) : (id, l) ∈ r.open_chunks := by
  obtain ⟨trace, hlookup, -⟩ := h
  exact mem_of_lookup hlookup

theorem isSome_mark {trace : ChunkTrace} {stage other : Stage} (t_wall : ℚ)
    (h : (trace.marks.lookup other).isSome ∨ other = stage) :
    ((trace.mark stage t_wall).marks.lookup other).isSome := by
  unfold ChunkTrace.mark
  by_cases heq : other = stage
  · subst heq
    cases hlookup : trace.marks.lookup other with
    | none => simp [lookup_setdefault_of_none hlookup]
    | some t => simp [lookup_setdefault_of_some hlookup]
  · rw [lookup_setdefault_ne heq]
    exact h.resolve_right heq

/-- A mark that is no publication is borne from then on, and no other one is lost. -/
theorem Bears.mark (h : r.Bears id l stages) {stage : Stage} (hstage : stage ≠ .published)
    (t_wall : ℚ) : (r.mark id l stage t_wall).Bears id l (stage :: stages) := by
  obtain ⟨trace, hlookup, hstages⟩ := h
  rw [mark_open hlookup hstage]
  refine ⟨trace.mark stage t_wall, AList.lookup_insert _, fun other hother => ?_⟩
  apply isSome_mark
  exact (List.mem_cons.mp hother).symm.imp_left (hstages other)

theorem Bears.marked (h : r.Bears id l stages) {stage : Stage} (hstage : stage ≠ .published)
    (t_wall : ℚ) : (r.mark i language stage t_wall).Bears id l stages := by
  by_cases hkey : (id, l) = (i, language)
  · obtain ⟨rfl, rfl⟩ := Prod.mk.inj hkey
    obtain ⟨trace, hlookup, hstages⟩ := h.mark hstage t_wall
    exact ⟨trace, hlookup, fun other hother => hstages other (List.mem_cons_of_mem _ hother)⟩
  · cases hlookup : r.open_chunks.lookup (i, language) with
    | none => rwa [mark_unknown hlookup]
    | some other =>
      rw [mark_open hlookup hstage]
      obtain ⟨trace, htrace, hstages⟩ := h
      exact ⟨trace, (AList.lookup_insert_ne hkey).trans htrace, hstages⟩

/-- A publication leaves the marks of the traces that stay open. -/
theorem Bears.published (h : r.Bears id l stages) {e now : ℚ} (hwaits : r.Waits i language e)
    (hopen : (id, l) ∈ (r.mark i language .published now).open_chunks) :
    (r.mark i language .published now).Bears id l stages := by
  obtain ⟨open_chunks, stages', heq, hkeys, hothers⟩ := mark_published hwaits now
  rw [heq] at hopen ⊢
  have hkey : (id, l) ≠ (i, language) := by
    intro hkey
    have hnodup := (hkeys.nodup_iff).mpr (AList.keys_nodup _)
    rw [List.nodup_cons] at hnodup
    exact hnodup.1 (hkey ▸ AList.mem_keys.mp hopen)
  obtain ⟨trace, htrace, hstages⟩ := h
  exact ⟨trace, (hothers _ hkey).trans htrace, hstages⟩

/-- A phrase that came through every stage is published. -/
theorem adds_published {e : ℚ} (hwaits : r.Waits id language e)
    (hbears : r.Bears id language [.ttsFirstAudio, .translated, .committed]) (now : ℚ)
    (h : ∀ l, r.Adds l) (l : String) : (r.mark id language .published now).Adds l := by
  obtain ⟨trace, epoch, hlookup, -, -, -, -, hunpublished⟩ := hwaits
  obtain ⟨trace', hlookup', hstages⟩ := hbears
  obtain rfl := Option.some.inj (hlookup.symm.trans hlookup')
  have hmarked : ∀ stage ∈ [Stage.ttsFirstAudio, .translated, .committed],
      ∃ t, (trace.mark .published now).marks.lookup stage = some t := fun stage hstage =>
    Option.isSome_iff_exists.mp (isSome_mark now (.inl (hstages stage hstage)))
  obtain ⟨heard, hheard⟩ := hmarked .ttsFirstAudio (by simp)
  obtain ⟨translated, htranslated⟩ := hmarked .translated (by simp)
  obtain ⟨committed, hcommitted⟩ := hmarked .committed (by simp)
  obtain ⟨p, hbreakdown, htotal⟩ := ChunkTrace.breakdown_eq hcommitted htranslated hheard
    (lookup_setdefault_of_none hunpublished)
  have hinserted : ∀ l, Adds { r with
      open_chunks := r.open_chunks.insert (id, language) (trace.mark .published now) } l :=
    fun l => (h l).of_eq rfl rfl
  unfold LatencyRecorder.mark
  rw [hlookup]
  exact adds_close hbreakdown htotal hinserted l

/-- A chunk is opened beside the traces that are open. -/
theorem Bears.openChunk (h : r.Bears id l stages) {e : ℚ} (hfresh : (i, language) ∉ r.open_chunks)
    (hopen : r.openChunk i language e = .ok r') : r'.Bears id l stages := by
  obtain ⟨epoch, -, rfl⟩ := openChunk_ok hopen
  have hne : (id, l) ≠ (i, language) := fun heq => hfresh (heq ▸ h.mem)
  obtain ⟨trace, hlookup, hstages⟩ := h
  exact ⟨trace, (AList.lookup_insert_ne hne).trans hlookup, hstages⟩

theorem bears_openChunk {e : ℚ} (hopen : r.openChunk i language e = .ok r') :
    r'.Bears i language [] := by
  obtain ⟨epoch, -, rfl⟩ := openChunk_ok hopen
  exact ⟨_, AList.lookup_insert _, fun stage hstage => by cases hstage⟩

/-- A chunk that is opened in these languages is committed in each, and the traces
that were open keep their marks. -/
theorem openAll_bears {e t : ℚ} (languages : List String) (hnodup : languages.Nodup)
    (hfresh : ∀ language ∈ languages, (i, language) ∉ r.open_chunks)
    (h : r.openAll i e t languages = .ok r') :
    (∀ language ∈ languages, r'.Bears i language [.committed]) ∧
      ∀ id l stages, r.Bears id l stages → r'.Bears id l stages := by
  induction languages generalizing r with
  | nil =>
    cases h
    exact ⟨(fun _ hl => by cases hl), fun _ _ _ hb => hb⟩
  | cons language languages ih =>
    rw [List.nodup_cons] at hnodup
    obtain ⟨r₀, hopen, hrest⟩ := openAll_cons h
    have hcommitted : Stage.committed ≠ .published := by decide
    have hhere := hfresh language List.mem_cons_self
    have hfresh' := unopened_of_opened_one (t := t) hnodup.1 hfresh hopen
    obtain ⟨hopened, hothers⟩ := ih hnodup.2 hfresh' hrest
    refine ⟨fun l hl => ?_, fun id l stages hb => ?_⟩
    · rcases List.mem_cons.mp hl with rfl | hl
      · exact hothers _ _ _ ((bears_openChunk hopen).mark hcommitted t)
      · exact hopened l hl
    · exact hothers _ _ _ ((hb.openChunk hhere hopen).marked hcommitted t)

end LatencyRecorder

end lad_translate.latency

namespace lad_translate.pipeline

open phrase_chunker config latency drift sessions LatencyRecorder

/-! ## The marks of the phrases on their way -/

/-- The trace of a phrase has these marks. -/
def Phrase.Bears (phrase : Phrase) (r : LatencyRecorder) (l : String)
    (stages : List latency.Stage) : Prop :=
  r.Bears phrase.1.chunk_id l stages

/-- The samples add up, and so will those of the phrases on their way: a worker gets
its phrases translated, and hands the room what has its first audio. -/
structure Staged (s : Session) : Prop where
  adds : ∀ l, s.recorder.Adds l
  translated : ∀ l w, s.workers l = some w → ∀ phrase ∈ w.pending,
    phrase.Bears s.recorder l [.translated, .committed]
  heard : ∀ l w phrase speech, s.workers l = some w → w.pc = .pushing phrase true speech →
    phrase.Bears s.recorder l [.ttsFirstAudio, .translated, .committed]

/-- The chunk that the pump waits for is committed in every language. -/
def Committed (setup : Setup) (s : Session) : Prop :=
  ∀ p, s.pump = .active p → ∀ phase chunk rest, p.pc = .translating phase chunk rest →
    ∀ l ∈ setup.config.targetCodes, s.recorder.Bears chunk.chunk_id l [.committed]

section

variable {setup : Setup} {s t : Session} {n : Nat} {ps qs : List Publication} {language : String}
  {w w' : Worker}

theorem mem_pending_of_pushing {phrase : Phrase} {speech : SpeechChunk}
    (hpc : w.pc = .pushing phrase true speech) : phrase ∈ w.pending :=
  pending_of_hand (by rw [hpc]; rfl) ▸ List.mem_cons_self

/-- A recorder that keeps the marks of its open traces. -/
theorem Staged.recorder (h : Staged s) {r : LatencyRecorder} (hadds : ∀ l, r.Adds l)
    (hbears : ∀ id l stages, s.recorder.Bears id l stages → r.Bears id l stages) :
    Staged { s with recorder := r } :=
  ⟨hadds, fun l w hw phrase hmem => hbears _ _ _ (h.translated l w hw phrase hmem),
    fun l w phrase speech hw hpc => hbears _ _ _ (h.heard l w phrase speech hw hpc)⟩

theorem Staged.mark (h : Staged s) (id : Nat) (language : String) {stage : latency.Stage}
    (hstage : stage ≠ .published) (t_wall : ℚ) :
    Staged { s with recorder := s.recorder.mark id language stage t_wall } :=
  h.recorder (fun l => (h.adds l).mark hstage t_wall) fun _ _ _ hb => hb.marked hstage t_wall

/-- What `Staged` speaks of. -/
theorem Staged.of_eq (h : Staged s) (hrecorder : t.recorder = s.recorder)
    (hworkers : t.workers = s.workers) : Staged t := by
  refine ⟨hrecorder ▸ h.adds, fun l w hw => ?_, fun l w phrase speech hw => ?_⟩
  · rw [hrecorder]
    exact h.translated l w (hworkers ▸ hw)
  · rw [hrecorder]
    exact h.heard l w phrase speech (hworkers ▸ hw)

/-- A translated phrase goes to the worker of its language. -/
theorem Staged.submit (h : Staged s) (hw : s.workers language = some w) {phrase : Phrase}
    (hphrase : phrase.Bears s.recorder language [.translated, .committed]) :
    Staged (s.submit language w phrase) := by
  refine ⟨h.adds, fun l v hv => ?_, fun l v x speech hv hpc => ?_⟩
  · by_cases hl : l = language
    · subst hl
      simp only [Session.submit, Session.setWorker, Function.update_self, Option.some.injEq] at hv
      subst hv
      intro x hx
      rw [pending_put_some] at hx
      rcases List.mem_append.mp hx with hx | hx
      · exact h.translated l w hw x hx
      · exact List.mem_singleton.mp hx ▸ hphrase
    · simp only [Session.submit, Session.setWorker, Function.update_of_ne hl] at hv
      exact h.translated l v hv
  · by_cases hl : l = language
    · subst hl
      simp only [Session.submit, Session.setWorker, Function.update_self, Option.some.injEq] at hv
      subst hv
      exact h.heard l w x speech hw hpc
    · simp only [Session.submit, Session.setWorker, Function.update_of_ne hl] at hv
      exact h.heard l v x speech hv hpc

/-- The translations of a chunk that is committed in every language. -/
theorem Staged.submitAll {chunk : PhraseChunk} (now : ℚ) (items : List (String × String))
    (h : Staged s) (hlanguages : ∀ l w, s.workers l = some w → l ∈ setup.config.targetCodes)
    (hcommitted : ∀ l ∈ setup.config.targetCodes, s.recorder.Bears chunk.chunk_id l [.committed]) :
    Staged (s.submitAll chunk now items).1 := by
  induction items generalizing s with
  | nil => exact h
  | cons item items ih =>
    obtain ⟨language, text⟩ := item
    have hstage : latency.Stage.translated ≠ .published := by decide
    unfold Session.submitAll
    simp only
    have hmarked := h.mark chunk.chunk_id language hstage now
    split
    · exact hmarked
    · rename_i w hw
      have hphrase := (hcommitted language (hlanguages language w hw)).mark hstage now
      have hsubmitted : Staged (Session.submit { s with recorder := _ } language w (chunk, text)) :=
        hmarked.submit hw hphrase
      exact ih hsubmitted (submit_languages hlanguages hw)
        fun l hl => (hcommitted l hl).marked hstage now

/-! ## The steps of the pump -/

/-- A chunk that the pump turns to is numbered by the chunks before it. -/
theorem chunk_id_of_pumpTo {q : Pump} {phase : Phase} {chunk : PhraseChunk}
    {rest : List PhraseChunk} (hpc : q.pc = .translating phase chunk rest) {r : LatencyRecorder}
    (hopen : s.recorder.openAll chunk.chunk_id chunk.t_audio_end chunk.t_wall_committed
      setup.config.targetCodes = .ok r) (ht : Metered setup (s.pumpTo setup q) ps) :
    chunk.chunk_id = s.chunks := by
  obtain ⟨m, -, hbegun⟩ := ht
  unfold Begun Session.pumpTo at hbegun
  rw [hpc] at hbegun
  simp only [beginDispatch_eq, hopen] at hbegun
  obtain ⟨hm, ⟨k, ⟨hids, -⟩, hk⟩, -⟩ := hbegun
  simp only [Pump.upcoming, hpc, List.map_cons, List.length_cons, List.range'_succ,
    List.cons.injEq] at hids hk
  omega

theorem staged_pumpTo {q : Pump} (h : Staged s) (hkept : Kept setup n ps s) (hchunks : s.chunks = n)
    (ht : Metered setup (s.pumpTo setup q) ps) :
    Staged (s.pumpTo setup q) ∧ Committed setup (s.pumpTo setup q) := by
  cases hpc : q.pc with
  | receiving =>
    simp only [Session.pumpTo, hpc]
    refine ⟨h.of_eq rfl rfl, fun p hp phase chunk rest hpc' => ?_⟩
    cases hp
    rw [hpc] at hpc'
    cases hpc'
  | returned =>
    simp only [Session.pumpTo, hpc]
    exact ⟨h.of_eq rfl rfl, fun p hp => by cases hp⟩
  | translating phase chunk rest =>
    cases hopen : s.recorder.openAll chunk.chunk_id chunk.t_audio_end chunk.t_wall_committed
        setup.config.targetCodes with
    | error text =>
      simp only [Session.pumpTo, hpc, beginDispatch_eq, hopen]
      exact ⟨h.of_eq rfl rfl, fun p hp => by cases hp⟩
    | ok r =>
      have hid := (chunk_id_of_pumpTo hpc hopen ht).trans hchunks
      have hfresh : ∀ l ∈ setup.config.targetCodes,
          (chunk.chunk_id, l) ∉ s.recorder.open_chunks := fun l _ => hid ▸ hkept.books.unopened l
      obtain ⟨hcommitted, hothers⟩ :=
        openAll_bears setup.config.targetCodes setup.config.targetCodes_nodup hfresh hopen
      obtain ⟨open_chunks, hframe⟩ :=
        (openAll_opens setup.config.targetCodes setup.config.targetCodes_nodup hfresh hopen).frame
      have hadds : ∀ l, r.Adds l := fun l => (h.adds l).of_eq (by rw [hframe]) (by rw [hframe])
      have hrecorder : ∀ revised : Bool,
          Staged { s with recorder := if revised then r.recordRevision else r } := by
        intro revised
        cases revised with
        | false => exact h.recorder hadds hothers
        | true => exact h.recorder (fun l => (hadds l).of_eq rfl rfl) hothers
      simp only [Session.pumpTo, hpc, beginDispatch_eq, hopen]
      refine ⟨(hrecorder chunk.revised_after_commit).of_eq rfl rfl, ?_⟩
      intro p hp phase' chunk' rest' hpc' l hl
      cases hp
      rw [hpc] at hpc'
      cases hpc'
      have hb := hcommitted l hl
      simp only
      split <;> exact hb

theorem staged_pump [Unicode] {p : Pump} {event : PumpEvent}
    (hlanguages : ∀ l w, s.workers l = some w → l ∈ setup.config.targetCodes) (h : Staged s)
    (hcommitted : Committed setup s) (hmetered : Metered setup s ps) (ht : Metered setup t ps)
    (hpump : s.pump = .active p) (hpumps : Pumps setup s p event t) :
    Staged t ∧ Committed setup t := by
  obtain ⟨n, hkept, hbegun⟩ := hmetered
  unfold Begun at hbegun
  rw [hpump] at hbegun
  obtain ⟨hchunks, -, hopen⟩ := hbegun
  cases hpumps with
  | fails hevent => exact ⟨h.of_eq rfl rfl, fun p hp => by cases hp⟩
  | @hears hypothesis audio_at now q hstop hq =>
    have hsame : Staged { s with last_audio_at := audio_at } := h.of_eq rfl rfl
    exact staged_pumpTo hsame (hkept.of_eq rfl rfl rfl rfl) hchunks ht
  | finishes hevent hq => exact staged_pumpTo h hkept hchunks ht
  | @submitFails phase chunk rest translations now later raised hpc =>
    have hsubmitted := h.submitAll now translations.items hlanguages (hcommitted p hpump _ _ _ hpc)
    exact ⟨hsubmitted.of_eq rfl rfl, fun p hp => by cases hp⟩
  | @submits phase chunk rest translations now later q hpc hq =>
    have hsubmitted := h.submitAll now translations.items hlanguages (hcommitted p hpump _ _ _ hpc)
    obtain ⟨hkept', hcount, -⟩ := hkept.submitAll now translations.items hlanguages
      (hopen phase chunk rest hpc)
    exact staged_pumpTo hsubmitted hkept' (hcount.trans hchunks) ht

/-! ## The steps of a worker -/

/-- A worker gets no phrase from its own steps. -/
theorem Works.pending {event : WorkerEvent} {recorder : LatencyRecorder}
    {rows : List TranscriptRow} (h : Works setup s language w event w' recorder rows) :
    ∀ phrase ∈ w'.pending, phrase ∈ w.pending := by
  have hqueue : ∀ v : Worker, ∀ phrase ∈ v.queue.reduceOption, phrase ∈ v.pending :=
    fun v phrase hmem => List.mem_append_right _ hmem
  cases h with
  | @stops depth rest hpc hq =>
    intro x hx
    refine hqueue w x ?_
    rw [hq, List.reduceOption_cons_of_none]
    simpa [Worker.pending, WorkerPc.inHand] using hx
  | @takes depth phrase rest observed action pc hpc hq hhand =>
    intro x hx
    refine hqueue w x ?_
    rw [hq, List.reduceOption_cons_of_some]
    rcases hhand with hhand | rfl
    · exact List.mem_cons_of_mem _ (by simpa [Worker.pending, hhand, Worker.take] using hx)
    · simpa [Worker.pending, WorkerPc.inHand, Worker.take] using hx
  | @skips depth phrase rest observed action hpc hq =>
    intro x hx
    refine hqueue w x ?_
    rw [hq, List.reduceOption_cons_of_some]
    exact List.mem_cons_of_mem _ (by simpa [Worker.pending, WorkerPc.inHand, Worker.take] using hx)
  | leaves hpc hhand hevent hpush =>
    exact fun x hx => hqueue w x (by simpa [Worker.pending, hhand] using hx)
  | records hpc =>
    exact fun x hx => hqueue w x (by simpa [Worker.pending, WorkerPc.inHand] using hx)
  | hears hpc =>
    intro x hx
    simpa [Worker.pending, hpc, WorkerPc.inHand] using hx
  | pushes hpc =>
    exact fun x hx => hqueue w x (by simpa [Worker.pending, WorkerPc.inHand] using hx)

/-- The recorder after a step of a worker. -/
theorem Works.staged {event : WorkerEvent} {recorder : LatencyRecorder}
    {rows : List TranscriptRow} (hworks : Works setup s language w event w' recorder rows)
    (h : Staged s) (hw : s.workers language = some w)
    (hwaits : ∀ phrase ∈ w.pending, phrase.Waits s.recorder language) :
    (∀ l, recorder.Adds l) ∧
    (∀ id l stages, s.recorder.Bears id l stages → (id, l) ∈ recorder.open_chunks →
      recorder.Bears id l stages) ∧
    ∀ phrase speech, w'.pc = .pushing phrase true speech →
      phrase.Bears recorder language [.ttsFirstAudio, .translated, .committed] := by
  have hsame : ∀ id l stages, s.recorder.Bears id l stages → (id, l) ∈ s.recorder.open_chunks →
      s.recorder.Bears id l stages := fun _ _ _ hb _ => hb
  cases hworks with
  | stops hpc hq => exact ⟨h.adds, hsame, fun _ _ hpc' => by cases hpc'⟩
  | takes hpc hq hhand =>
    refine ⟨h.adds, hsame, fun phrase speech hpc' => ?_⟩
    simp only at hpc'
    subst hpc'
    rcases hhand with hhand | hhand <;> cases hhand
  | skips hpc hq => exact ⟨h.adds, hsame, fun _ _ hpc' => by cases hpc'⟩
  | leaves hpc hhand hevent hpush =>
    refine ⟨h.adds, hsame, fun phrase speech hpc' => ?_⟩
    simp only at hpc'
    subst hpc'
    cases hhand
  | records hpc => exact ⟨h.adds, hsame, fun _ _ hpc' => by cases hpc'⟩
  | @hears phrase first speech hpc =>
    cases first with
    | false => exact ⟨h.adds, hsame, fun _ _ hpc' => by cases hpc'⟩
    | true =>
      have hstage : latency.Stage.ttsFirstAudio ≠ .published := by decide
      have hmem : phrase ∈ w.pending := pending_of_hand (by rw [hpc]; rfl) ▸ List.mem_cons_self
      refine ⟨fun l => (h.adds l).mark hstage speech.t_wall,
        fun _ _ _ hb _ => hb.marked hstage speech.t_wall, fun x speech' hpc' => ?_⟩
      cases hpc'
      exact (h.translated language w hw phrase hmem).mark hstage speech.t_wall
  | @pushes phrase first speech now pushed hpc =>
    cases first with
    | false => exact ⟨h.adds, hsame, fun _ _ hpc' => by cases hpc'⟩
    | true =>
      have hwait := hwaits phrase (mem_pending_of_pushing hpc)
      have hheard := h.heard language w phrase speech hw hpc
      exact ⟨adds_published hwait hheard now h.adds, fun _ _ _ hb hopen => hb.published hwait hopen,
        fun _ _ hpc' => by cases hpc'⟩

/-- Every step of a worker keeps the marks of the phrases that are still to come. -/
theorem staged_worker {event : WorkerEvent} {recorder : LatencyRecorder} {drift : DriftController}
    {rows : List TranscriptRow} (h : Staged s) (hcommitted : Committed setup s)
    (hkept : Kept setup n ps s) (hw : s.workers language = some w)
    (hworks : Works setup s language w event w' recorder rows)
    (ht : Metered setup { s with
      workers := Function.update s.workers language (some w'), recorder, drift, rows } qs) :
    Staged { s with
        workers := Function.update s.workers language (some w'), recorder, drift, rows } ∧
      Committed setup { s with
        workers := Function.update s.workers language (some w'), recorder, drift, rows } := by
  obtain ⟨m, hkept', hbegun⟩ := ht
  obtain ⟨hadds, hbears, hpushing⟩ := hworks.staged h hw (hkept.tracked language w hw).waits
  have hopen : ∀ {id l e}, recorder.Waits id l e → (id, l) ∈ recorder.open_chunks := by
    rintro id l e ⟨trace, epoch, hlookup, -⟩
    exact mem_of_lookup hlookup
  refine ⟨⟨hadds, ?_, ?_⟩, ?_⟩
  · intro l v hv phrase hmem
    refine hbears _ _ _ ?_ (hopen ((hkept'.tracked l v hv).waits phrase hmem))
    by_cases hl : l = language
    · subst hl
      simp only [Function.update_self, Option.some.injEq] at hv
      subst hv
      exact h.translated l w hw phrase (hworks.pending phrase hmem)
    · simp only [Function.update_of_ne hl] at hv
      exact h.translated l v hv phrase hmem
  · intro l v phrase speech hv hpc
    have hwaits := (hkept'.tracked l v hv).waits phrase (mem_pending_of_pushing hpc)
    by_cases hl : l = language
    · subst hl
      simp only [Function.update_self, Option.some.injEq] at hv
      subst hv
      exact hpushing phrase speech hpc
    · simp only [Function.update_of_ne hl] at hv
      exact hbears _ _ _ (h.heard l v phrase speech hv hpc) (hopen hwaits)
  · intro p hp phase chunk rest hpc l hl
    unfold Begun at hbegun
    simp only at hp hbegun
    rw [hp] at hbegun
    exact hbears _ _ _ (hcommitted p hp phase chunk rest hpc l hl)
      (hopen (hbegun.2.2 phase chunk rest hpc l hl))

/-! ## Every step -/

theorem staged_main {event : MainEvent} (hstage : Stage setup s s.main) (h : Staged s)
    (hcommitted : Committed setup s) (hdid : MainDid setup s event t) :
    Staged t ∧ Committed setup t := by
  have hframe := main_frame hstage hdid
  refine ⟨⟨?_, ?_, ?_⟩, ?_⟩
  · rw [hframe.recorder]
    exact h.adds
  · intro l w' hw' phrase hmem
    rw [hframe.recorder]
    rcases main_pending hstage hdid hw' with ⟨-, hnone, -⟩ | ⟨w, hw, hpending, -⟩
    · rw [hnone] at hmem
      cases hmem
    · exact h.translated l w hw phrase (hpending ▸ hmem)
  · intro l w' phrase speech hw' hpc
    rw [hframe.recorder]
    rcases main_pending hstage hdid hw' with ⟨-, -, hnone⟩ | ⟨w, hw, -, hsame⟩
    · rw [hpc] at hnone
      cases hnone
    · exact h.heard l w phrase speech hw (hsame ▸ hpc)
  · intro p hp phase chunk rest hpc
    rw [hframe.recorder]
    rcases hframe.pump with hpump | ⟨-, hpump⟩
    · exact hcommitted p (hpump ▸ hp) phase chunk rest hpc
    · rw [hpump] at hp
      cases hp
      cases hpc

theorem staged_step [Unicode] {event : Event} (hs : Sound setup s) (hmetered : Metered setup s ps)
    (ht : Metered setup t (ps ++ published s event t)) (h : Staged s) (hcommitted : Committed setup s)
    (hstep : (sessionRuns setup).step s event = some t) : Staged t ∧ Committed setup t := by
  cases event with
  | main event => exact staged_main hs.stage h hcommitted (Session.mainStep_did hstep)
  | pump event =>
    obtain ⟨p, hpump, hstep⟩ := pump_step hstep
    exact staged_pump hs.languages h hcommitted hmetered (List.append_nil ps ▸ ht) hpump
      (Session.pumpStep_pumps hstep)
  | worker language event =>
    obtain ⟨w, hw, hstep⟩ := Option.bind_eq_some_iff.mp hstep
    obtain ⟨w', recorder, drift, rows, rfl, hworks⟩ := Session.workerStep_worked hstep
    obtain ⟨n, hkept, -⟩ := hmetered
    exact staged_worker h hcommitted hkept hw hworks ht
  | watch now =>
    obtain ⟨end_reason, stop, watching, rfl⟩ := watch_step hstep
    exact ⟨h.of_eq rfl rfl, hcommitted⟩
  | frame t_audio t_wall =>
    rw [frame_step hstep]
    unfold Session.anchorClock
    split
    · exact ⟨h, hcommitted⟩
    · exact ⟨h.recorder (fun l => (h.adds l).of_eq rfl rfl) (fun _ _ _ hb => hb), hcommitted⟩

theorem staged_of_run [Unicode] {events : List Event}
    (h : (sessionRuns setup).run events = some s) : Staged s ∧ Committed setup s := by
  refine (sessionRuns setup).run_induction (P := fun _ s => Staged s ∧ Committed setup s) ?_ ?_ h
  · refine ⟨⟨adds_fresh setup.config.slo_seconds, ?_, ?_⟩, ?_⟩
    · intro l w hw
      cases hw
    · intro l w phrase speech hw
      cases hw
    · intro p hp
      cases hp
  · intro events s event t hrun ih hstep
    have ht := metered_step (sound_of_run hrun) (accounted_of_run hrun) (metered_of_run hrun) hstep
    exact staged_step (sound_of_run hrun) (metered_of_run hrun) ht ih.1 ih.2 hstep

/-! ## The report -/

/-- In the report of a language, the means of the four stages add up to the mean time
from the speaker to the room, over the newest 20000 publications. -/
theorem the_stages_add_up_to_the_wait [Unicode] {events : List Event}
    (h : (sessionRuns setup).run events = some s) (l : String)
    (hcount : (s.recorder.stats l).count ≠ 0) :
    let waits := ((((sessionRuns setup).history published events).filter (·.language = l)).map
      (·.glassToGlass s.recorder.clock)).rtake 20000
    ((s.recorder.stats l).stage_means.map Prod.fst).Perm ["chunker", "translate", "tts", "publish"] ∧
      ((s.recorder.stats l).stage_means.map Prod.snd).sum = waits.sum / waits.length := by
  intro waits
  obtain ⟨n, hkept, -⟩ := metered_of_run h
  have hwaits : (s.recorder.g2g.lookup l).getD [] = waits := by
    have hsamples := hkept.books.samples l
    rwa [kept, hkept.cap] at hsamples
  have hlength : (s.recorder.stats l).count = waits.length := by
    rw [← hwaits]
    rfl
  obtain ⟨hlabels, hsum⟩ := ((staged_of_run h).1.adds l).stats hcount
  rw [hwaits, hlength] at hsum
  exact ⟨hlabels, hsum⟩

end

open ascii

theorem spokenTalk_counted : (((sessionRuns oneLanguage).run spokenTalk).map fun s =>
    (s.recorder.stats "fr").count) = some 1 := by
  decide +kernel

/-- The one phrase of the spoken talk: its four stages are its wait. -/
theorem the_stages_of_a_spoken_talk_add_up :
    ∃ s, (sessionRuns oneLanguage).run spokenTalk = some s ∧
      (s.recorder.stats "fr").stage_means.length = 4 := by
  obtain ⟨s, hrun, hcount⟩ := Option.map_eq_some_iff.mp spokenTalk_counted
  have hsome : (s.recorder.stats "fr").count ≠ 0 := by simp [hcount]
  have hlabels := (the_stages_add_up_to_the_wait hrun "fr" hsome).1
  exact ⟨s, hrun, by simpa using hlabels.length_eq⟩

end lad_translate.pipeline
