import Baerly.Verify.Manifest

/-
  `compact` keeps the protocol.

  CRUX: the manifest CAS names the version the fold started from.  If an entry the fold read was
  not the committed one, its slot was below the certified floor by then, so `log_seq_start` has
  passed the version's own and the CAS can only lose.  Otherwise the new snapshot is the fold of a
  longer committed prefix.
-/

namespace Baerly

open Async

variable {codec : Codec} {c : Collection} {t : Nat} {w : World}

/-! ## What the reads establish -/

/-- Slots that were all read occupied end at or below the tail. -/
theorem answers_le_tail {why : Purpose} {since n : Nat} {es : List LogEntry}
    (h : Answers (ReadFact t why since) w n es) (hn : n ≤ w.tail) : n + es.length ≤ w.tail := by
  by_cases hempty : es = []
  · subst hempty
    exact hn
  · have hpos : 0 < es.length := List.length_pos_iff.mpr hempty
    have hlt : es.length - 1 < es.length := by omega
    obtain ⟨hocc, _⟩ := (h (es.length - 1) _ (List.getElem?_eq_getElem hlt)).occupied _ rfl
    omega

/-- Entries that were read are the committed ones, unless the version they were read under has
    been outrun. -/
theorem answers_committed (hinv : w.floor ≤ w.start) {why : Purpose} {since start : Nat}
    {es : List LogEntry} (h : Answers (ReadFact t why since) w start es) :
    start < w.start ∨ ∀ i e, es[i]? = some e → w.hist[start + i]? = some e := by
  by_cases hold : start < w.start
  · exact Or.inl hold
  · refine Or.inr fun i e hi => ?_
    rcases (h i e hi).committed with hh | hf
    · exact hh
    · omega

/-- A slice of the history, as a list. -/
theorem take_of_slice {hist es : List LogEntry} {start : Nat} (j : Nat) (hj : j ≤ es.length)
    (h : ∀ i e, es[i]? = some e → hist[start + i]? = some e) :
    (hist.drop start).take j = es.take j := by
  refine List.ext_getElem? fun i => ?_
  rw [List.getElem?_take, List.getElem?_take]
  split
  next hi =>
    have hlt : i < es.length := by omega
    rw [List.getElem?_drop, List.getElem?_eq_getElem hlt]
    exact h i _ (List.getElem?_eq_getElem hlt)
  next => rfl

/-- Folding a committed slice onto the rows below it gives the rows of the longer prefix. -/
theorem fold_slice {hist es : List LogEntry} {start : Nat} {base : Rows} (j : Nat)
    (hj : j ≤ es.length)
    (hbase : ∀ id, base.get id = (committedRows c hist start).get id)
    (h : ∀ i e, es[i]? = some e → hist[start + i]? = some e) (id : JsString) :
    (foldLogEntriesOnto c.collectionName none base (es.take j)).get id =
      (committedRows c hist (start + j)).get id := by
  rw [foldLogEntriesOnto_congr (es.take j) hbase id]
  unfold committedRows
  rw [← foldLogEntriesOnto_append, List.take_add, take_of_slice j hj h]

/-! ## The base -/

/-- **Rule for `loadBase`**: the rows of the committed prefix the manifest folded. -/
theorem wp_loadBase {m : CurrentJson} (hm : ManifestOk codec c w m) :
    (protocol codec c).wp t (loadBase codec c m) (fun r w' => Quiet t w w' ∧
      ∀ base, r = .ok base → ∀ id, base.get id = (committedRows c w'.hist m.logSeqStart).get id)
      w := by
  unfold loadBase
  cases hsnap : m.snapshot with
  | none =>
    refine ⟨.refl t w, fun base hb id => ?_⟩
    cases hb
    rw [hm.unfolded hsnap]
    rfl
  | some key =>
    obtain ⟨body, hok, happ⟩ := hm.folded key hsnap
    refine Protocol.wp_seq wp_getSnapshot ?_ ?_
    · rintro (_ | b) w₁ ⟨hq, hread⟩
      · exact ⟨hq, fun base hb => by cases hb⟩
      · obtain ⟨hsent, hinv⟩ := hread b rfl
        -- content addressing: the file under this key is the one that was folded
        have heq : b = body := hinv.content key b body hsent (hq.evolves.applied happ).sent
        subst heq
        refine wp_ofExcept ⟨hq, fun base hb id => ?_⟩
        rw [hok.load] at hb
        cases hb
        exact (hq.evolves.snapOk hok).rows id
    · rintro e w₁ ⟨hq, _⟩
      exact ⟨hq, fun base hb => by cases hb⟩

/-! ## Publishing -/

theorem wp_publish {pub : Publisher} {before after : CurrentJson}
    (hcas : CasOk codec c w pub before after) :
    (protocol codec c).wp t (publish pub before after) (fun _ w' => Quiet t w w') w := by
  have hok : ReqOk codec c w t (.casCurrent pub before after) := hcas
  refine Protocol.wp_attempt_bind (wp_write hok rfl) ?_
  rintro (e | date) w₁ ⟨hq, _⟩
  · dsimp only
    split
    · exact hq
    · exact hq
  · exact hq

/-- **The probe** finds a tail that was reached. -/
theorem wp_compactProbe {opts : CompactOptions} {probeFloor : Nat} (hle : probeFloor ≤ w.tail) :
    (protocol codec c).wp t (compactProbe c opts probeFloor) (fun r w' => Quiet t w w' ∧
      ∀ d b, r = .ok (d, b) → probeFloor ≤ d ∧ d ≤ w'.tail) w := by
  have hR := readRule codec c t .fold 0
  have h0 : 0 ≤ w.tail := Nat.zero_le _
  unfold compactProbe
  cases opts.maxTailProbeGets with
  | none =>
    refine Protocol.wp_seq (wp_probeTailFrom hR h0) ?_ ?_
    · rintro ⟨tail, entries⟩ w₁ ⟨hq, hres⟩
      obtain ⟨htail, hans, _⟩ := hres tail entries rfl
      have hbound := answers_le_tail hans (Nat.le_trans hle hq.evolves.tail)
      refine ⟨hq, fun d b hd => ?_⟩
      cases hd
      omega
    · rintro e w₁ ⟨hq, _⟩
      exact ⟨hq, fun d b hd => by cases hd⟩
  | some cap =>
    refine Protocol.wp_seq (wp_probeTailChunk hR h0) ?_ ?_
    · rintro (⟨tail, entries⟩ | ⟨bound, entries⟩) w₁ ⟨hq, hres⟩
      · obtain ⟨htail, -, hans, _⟩ := hres _ rfl
        have hbound := answers_le_tail hans (Nat.le_trans hle hq.evolves.tail)
        refine ⟨hq, fun d b hd => ?_⟩
        cases hd
        omega
      · obtain ⟨hb, hlen, hans⟩ := hres _ rfl
        have hbound := answers_le_tail hans (Nat.le_trans hle hq.evolves.tail)
        refine ⟨hq, fun d b hd => ?_⟩
        cases hd
        omega
    · rintro e w₁ ⟨hq, _⟩
      exact ⟨hq, fun d b hd => by cases hd⟩

/-- What the fold hands to the publication: an outrun version, or the rows of a committed
    prefix. -/
def Folded (c : Collection) (w : World) (start foldEnd : Nat) (base : Rows) : Prop :=
  start < w.start ∨ (foldEnd ≤ w.tail ∧
    ∀ id, base.get id = (committedRows c w.hist foldEnd).get id)

theorem Folded.keep {w' : World} {start foldEnd : Nat} {base : Rows}
    (h : Folded c w start foldEnd base) (hev : Evolves w w') :
    Folded c w' start foldEnd base := by
  rcases h with hold | ⟨hle, hrows⟩
  · exact Or.inl (Nat.lt_of_lt_of_le hold hev.start)
  · refine Or.inr ⟨Nat.le_trans hle hev.tail, fun id => ?_⟩
    rw [hev.committedRows hle]
    exact hrows id

/-- **Steps 5 to 7.** -/
theorem wp_compactPublish {opts : CompactOptions} {m : CurrentJson} {d applied : Nat} {base : Rows}
    {fetched : List LogEntry} (hm : ManifestOk codec c w m) (hd : d ≤ w.tail)
    (hend : m.logSeqStart + applied ≤ max m.tailHint d)
    (hfold : Folded c w m.logSeqStart (m.logSeqStart + applied) base) :
    (protocol codec c).wp t (compactPublish codec c opts m d base applied fetched)
      (fun _ w' => Quiet t w w') w := by
  unfold compactPublish
  dsimp only
  split
  · exact Quiet.refl t w
  · refine wp_check (fun newKey hkey => ?_) fun e _ => Quiet.refl t w
    have hput : ReqOk codec c w t (.putSnapshot newKey
      ⟨0, m.logSeqStart + applied, c.collectionName, sortedDocs base⟩) := trivial
    refine Protocol.wp_seq (wp_write hput rfl) ?_ fun e w₁ h => h.1
    rintro date w₁ ⟨hq, hout⟩
    obtain ⟨happ, _⟩ := hout.acked date rfl
    refine wp_check (fun _ htr => ?_) fun e _ => hq
    have hm₁ := hq.evolves.manifestOk hm
    have hmhint := hm₁.hint_le
    have hd₁ : d ≤ w₁.tail := Nat.le_trans hd hq.evolves.tail
    have hcas : CasOk codec c w₁ .fold m (m.folded codec newKey (m.logSeqStart + applied) d
        ⟨0, m.logSeqStart + applied, c.collectionName, sortedDocs base⟩ base.size
        (fetched.take applied)) := by
      refine ⟨.of_assert htr rfl ?_ ?_, hm.wf, ?_, fun _ => ?_⟩
      · show m.tailHint ≤ max m.tailHint d
        omega
      · exact hend
      · show max m.tailHint d ≤ w₁.tail
        omega
      · rcases hfold.keep hq.evolves with hold | ⟨hle, hrows⟩
        · exact Or.inl hold
        · refine Or.inr ⟨newKey, _, rfl, ⟨parseMaxSeq_snapshotKey hkey, ?_, hle, ?_⟩, happ⟩
          · unfold decodeSnapshot
            dsimp only
            rw [snapshotHashOfKey_snapshotKey hkey, if_neg (fun h => h rfl),
              if_neg (fun h => h rfl)]
          · intro id
            rw [get_loadDocs_sortedDocs]
            exact hrows id
    refine Protocol.wp_seq (wp_publish hcas) ?_ fun e w₂ hq₂ => hq.trans hq₂
    intro landed w₂ hq₂
    cases landed with
    | true => exact hq.trans hq₂
    | false => exact hq.trans hq₂

/-- **Steps 2 to 4.** -/
theorem wp_compactFold {opts : CompactOptions} {m : CurrentJson} {d : Nat}
    (hm : ManifestOk codec c w m) (hd : d ≤ w.tail) :
    (protocol codec c).wp t (compactFold codec c opts m d) (fun _ w' => Quiet t w w') w := by
  unfold compactFold
  dsimp only
  refine Protocol.wp_seq (wp_loadBase hm) ?_ fun e w₁ h => h.1
  rintro base w₁ ⟨hq₁, hbase⟩
  refine Protocol.wp_seq (wp_walkLogRange (readRule codec c t .fold 0) (Nat.zero_le _)) ?_
    fun e w₂ h => hq₁.trans h.1
  rintro fetched w₂ ⟨hq₂, hres⟩
  obtain ⟨hlen, hans⟩ := hres fetched rfl
  have hfetched : fetched.length ≤ d - m.logSeqStart := by
    rw [hlen]
    split
    · omega
    · omega
  have hq := hq₁.trans hq₂
  have hm₁ := hq₁.evolves.manifestOk hm
  have hm₂ := hq.evolves.manifestOk hm
  obtain ⟨j, hj, hup⟩ := foldUpTo_eq c.collectionName opts.ceilingEntries base 0 fetched
  rw [hup]
  dsimp only
  split
  · exact hq
  · have hstart : m.logSeqStart ≤ m.tailHint := hm.wf.start_le
    have hhint := hm₂.hint_le
    have hd₂ : d ≤ w₂.tail := Nat.le_trans hd hq.evolves.tail
    refine Protocol.wp_mono (wp_compactPublish hm₂ hd₂ (by omega) ?_) fun r w₃ hq₃ => hq.trans hq₃
    rcases answers_committed w₂.floor_le_start hans with hold | hslice
    · exact Or.inl hold
    · refine Or.inr ⟨by omega, fun id => ?_⟩
      have hbase₂ : ∀ id, base.get id = (committedRows c w₂.hist m.logSeqStart).get id := by
        intro id
        rw [hq₂.evolves.committedRows (Nat.le_trans hstart hm₁.hint_le)]
        exact hbase base rfl id
      rw [show m.logSeqStart + (0 + j) = m.logSeqStart + j by omega]
      exact fold_slice j hj hbase₂ hslice id

/-- **Rule for `compact`**, handed an observed tail. -/
theorem wp_compact {opts : CompactOptions} (hknown : opts.knownTail.getD 0 ≤ w.tail) :
    (protocol codec c).wp t (compact codec c opts) (fun _ w' => Calm t w w') w := by
  unfold compact
  split
  · exact Calm.refl t w
  · refine Protocol.wp_seq wp_readCurrentJson ?_ fun e w₁ h => h.1
    rintro (_ | m) w₁ ⟨hcalm, hread⟩
    · exact hcalm
    · have hm := (hread _ rfl).found m rfl
      have hhint := hm.hint_le
      have hstart : m.logSeqStart ≤ m.tailHint := hm.wf.start_le
      have htail := hcalm.evolves.tail
      refine Protocol.wp_seq (wp_compactProbe (w := w₁) (by omega)) ?_
        fun e w₂ h => hcalm.trans h.1.toCalm
      rintro ⟨d, tailIsExact⟩ w₂ ⟨hq₂, hprobe⟩
      obtain ⟨hfloor, hd⟩ := hprobe d tailIsExact rfl
      have hcalm₂ : Calm t w w₂ := hcalm.trans hq₂.toCalm
      have hm₂ := hq₂.evolves.manifestOk hm
      dsimp only
      split
      · cases tailIsExact with
        | true => exact hcalm₂
        | false =>
          refine wp_check (fun _ htr => ?_) fun e _ => hcalm₂
          have hcas : CasOk codec c w₂ .checkpoint m (m.checkpoint d) := by
            have hhint₂ := hm₂.hint_le
            refine .of_bounds hm₂ htr rfl (by decide) ?_ ?_ ?_
            · show m.tailHint ≤ max m.tailHint d
              omega
            · show m.logSeqStart ≤ max m.tailHint d
              omega
            · show max m.tailHint d ≤ w₂.tail
              omega
          refine Protocol.wp_seq (wp_publish hcas) ?_ fun e w₃ hq₃ => hcalm₂.trans hq₃.toCalm
          intro landed w₃ hq₃
          cases landed with
          | true => exact hcalm₂.trans hq₃.toCalm
          | false => exact hcalm₂.trans hq₃.toCalm
      · exact Protocol.wp_mono (wp_compactFold hm₂ hd) fun r w₃ hq₃ => hcalm₂.trans hq₃.toCalm

end Baerly
