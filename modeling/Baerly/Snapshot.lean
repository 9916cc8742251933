import Baerly.LogEntry
import Baerly.Coordination.CurrentJson
import Mathlib.Data.List.Sort

/-
  Snapshot objects (`server/src/snapshot.ts`, and the key parser of `server/src/gc.ts`).

  PROGRAM: a snapshot is one content-addressed object holding the folded rows, sorted by id.  Its
  key embeds the half-open seq range it covers and the hash of its body; the loader recomputes the
  hash, and the garbage collector reads the fold end back out of the key.

  CRUX: `parseMaxSeq_snapshotKey` — the parser inverts the key builder, so the fold end a key
  carries is the fold end of the snapshot stored under it — and `loadDocs_sortedDocs`: writing a
  map out sorted and loading it again answers every lookup as before.

  Encoding and SHA-256 come in as functions (`Codec`); nothing is assumed of them here.
-/

namespace Baerly

/-! ## Where a collection lives -/

/-- `"/"`. -/
def slash : Fin 65536 := 47

/-- `key.slice(0, key.lastIndexOf("/"))`; with no slash the index is `-1` and the slice drops
    the last unit. -/
def dirname (key : Key) : Key :=
  if key.contains slash then ((key.reverse.dropWhile (· ≠ slash)).drop 1).reverse
  else key.dropLast

/-- `key.slice(key.lastIndexOf("/") + 1)`. -/
def basename (key : Key) : Key :=
  (key.reverse.takeWhile (· ≠ slash)).reverse

/-- The coordinates every entry point derives from `currentJsonKey`. -/
structure Collection where
  currentJsonKey : Key
  deriving DecidableEq

namespace Collection

/-- `collectionPrefix`, also called `logPrefix`. -/
def collectionPrefix (c : Collection) : Key :=
  dirname c.currentJsonKey

/-- `collectionName`. -/
def collectionName (c : Collection) : JsString :=
  basename c.collectionPrefix

end Collection

/-! ## Keys -/

/-- `SEQ_DIGITS`. -/
def seqDigits : Nat := 12

/-- `MAX_SEQ`. -/
def maxSeqLimit : Nat := 10 ^ seqDigits - 1

/-- The decimal digits of `n.toString()` as code units. -/
def decimal (n : Nat) : JsString :=
  (Nat.toDigits 10 n).map fun c => Fin.ofNat 65536 c.toNat

/-- `n.toString().padStart(SEQ_DIGITS, "0")`. -/
def pad (n : Nat) : JsString :=
  List.replicate (seqDigits - (decimal n).length) 48 ++ decimal n

/-- `/[0-9]/`. -/
def isDigit (u : Fin 65536) : Bool := 48 ≤ u.val ∧ u.val ≤ 57

/-- `/[0-9a-f]/`. -/
def isHex (u : Fin 65536) : Bool := isDigit u ∨ (97 ≤ u.val ∧ u.val ≤ 102)

/-- `Number(digits)` on a run of decimal digits. -/
def ofDigits (us : JsString) : Nat :=
  us.foldl (fun acc u => 10 * acc + (u.val - 48)) 0

/-- `Number.MAX_SAFE_INTEGER`. -/
def maxSafeInteger : Nat := 2 ^ 53 - 1

/-- `logObjectKey(collectionPrefix, seq)`. -/
def logObjectKey (collectionPrefix : Key) (seq : Nat) : Key :=
  collectionPrefix ++ js "/log/" ++ decimal seq ++ js ".json"

/-- `` `${collectionPrefix}/snapshot/L9/` ``. -/
def snapshotDir (collectionPrefix : Key) : Key :=
  collectionPrefix ++ js "/snapshot/L9/"

/-- `/^[0-9a-f]{64}$/`. -/
def isSha256 (s : JsString) : Bool :=
  s.length = 64 ∧ s.all isHex

/-- The key text once the range and the hash are known to be good. -/
def snapshotKeyText (collectionPrefix : Key) (minSeq maxSeq : Nat) (sha256 : JsString) : Key :=
  snapshotDir collectionPrefix ++ (pad minSeq ++ (js "-" ++ (pad maxSeq ++
    (js "-" ++ (sha256 ++ js ".json")))))

/-- `snapshotKey`. -/
def snapshotKey (collectionPrefix : Key) (minSeq maxSeq : Nat) (sha256 : JsString) :
    Except Err Key :=
  if maxSeq < minSeq ∨ maxSeqLimit < maxSeq then
    .error (.mk .invalidConfig s!"snapshotKey: invalid range [{minSeq}, {maxSeq})")
  else if !isSha256 sha256 then
    .error (.mk .invalidConfig "snapshotKey: sha256 must be 64 hex chars")
  else .ok (snapshotKeyText collectionPrefix minSeq maxSeq sha256)

/-- `parseMaxSeqFromCanonicalSnapshotKey`: the key minus the directory must match
    `/^(\d{12})-(\d{12})-[0-9a-f]{64}\.json$/` with an ordered range. -/
def parseMaxSeqFromCanonicalSnapshotKey (key collectionPrefix : Key) : Option Nat :=
  if !(snapshotDir collectionPrefix).isPrefixOf key then none
  else
    let name := key.drop (snapshotDir collectionPrefix).length
    let minPart := name.take 12
    let rest₁ := name.drop 12
    let maxPart := (rest₁.drop 1).take 12
    let rest₂ := (rest₁.drop 1).drop 12
    let hash := (rest₂.drop 1).take 64
    let ext := (rest₂.drop 1).drop 64
    if minPart.length = 12 ∧ minPart.all isDigit ∧ rest₁.take 1 = js "-" ∧
        maxPart.length = 12 ∧ maxPart.all isDigit ∧ rest₂.take 1 = js "-" ∧
        isSha256 hash ∧ ext = js ".json" then
      if ofDigits minPart ≤ ofDigits maxPart then some (ofDigits maxPart) else none
    else none

/-- The hash `loadSnapshotAsMap` expects: the last dash-separated piece of the file name, without
    `.json`. -/
def snapshotHashOfKey (key : Key) : JsString :=
  let filename := basename key
  let stem := if (js ".json").isSuffixOf filename then filename.take (filename.length - 5)
    else filename
  (stem.reverse.takeWhile (· ≠ 45)).reverse

theorem digit_val {c : Char} (h : c.isDigit = true) :
    (Fin.ofNat 65536 c.toNat).val = c.toNat ∧ 48 ≤ c.toNat ∧ c.toNat ≤ 57 := by
  have hr : 48 ≤ c.toNat ∧ c.toNat ≤ 57 := by
    simp only [Char.isDigit, Bool.and_eq_true, decide_eq_true_eq] at h
    exact h
  refine ⟨?_, hr⟩
  show c.toNat % 65536 = c.toNat
  omega

theorem isDigit_decimal (n : Nat) : (decimal n).all isDigit = true := by
  simp only [decimal, List.all_eq_true, List.mem_map]
  rintro u ⟨c, hc, rfl⟩
  have hd := digit_val (Nat.isDigit_of_mem_toDigits (by decide) (by decide) hc)
  simp only [isDigit, decide_eq_true_eq, hd.1]
  exact hd.2

theorem ofDigits_decimal (n : Nat) : ofDigits (decimal n) = n := by
  have hfold : ∀ (l : List Char) (acc : Nat), (∀ c ∈ l, c.isDigit = true) →
      (l.map fun c => (Fin.ofNat 65536 c.toNat : Fin 65536)).foldl
        (fun acc u => 10 * acc + (u.val - 48)) acc = Nat.ofDigitChars 10 l acc := by
    intro l
    induction l with
    | nil => intro acc _; rfl
    | cons c l ih =>
      intro acc hl
      rw [List.map_cons, List.foldl_cons, (digit_val (hl c (by simp))).1, Nat.ofDigitChars_cons]
      exact ih _ fun c' hc' => hl c' (by simp [hc'])
  rw [ofDigits, decimal, hfold _ _ fun c hc =>
    Nat.isDigit_of_mem_toDigits (by decide) (by decide) hc]
  exact Nat.ofDigitChars_ten_toDigits

theorem length_decimal_le {n : Nat} (h : n ≤ maxSeqLimit) : (decimal n).length ≤ seqDigits := by
  rw [decimal, List.length_map]
  refine (Nat.length_toDigits_le_iff (by decide) (by decide)).mpr ?_
  have : maxSeqLimit < 10 ^ seqDigits := by decide
  omega

theorem length_pad {n : Nat} (h : n ≤ maxSeqLimit) : (pad n).length = 12 := by
  have := length_decimal_le h
  simp only [pad, List.length_append, List.length_replicate]
  unfold seqDigits at *
  omega

theorem isDigit_pad (n : Nat) : (pad n).all isDigit = true := by
  rw [pad, List.all_append, isDigit_decimal, Bool.and_true, List.all_eq_true]
  intro u hu
  rw [(List.mem_replicate.mp hu).2]
  decide

theorem ofDigits_pad (n : Nat) : ofDigits (pad n) = n := by
  have hzeros : ∀ k, (List.replicate k (48 : Fin 65536)).foldl
      (fun acc u => 10 * acc + (u.val - 48)) 0 = 0 := by
    intro k
    induction k with
    | zero => rfl
    | succ k ih => rw [List.replicate_succ, List.foldl_cons]; exact ih
  rw [ofDigits, pad, List.foldl_append, hzeros]
  exact ofDigits_decimal n

/-- What a successful `snapshotKey` produced. -/
theorem snapshotKey_ok {p : Key} {minSeq maxSeq : Nat} {sha256 : JsString} {key : Key}
    (h : snapshotKey p minSeq maxSeq sha256 = .ok key) :
    key = snapshotKeyText p minSeq maxSeq sha256 ∧ minSeq ≤ maxSeq ∧ maxSeq ≤ maxSeqLimit ∧
      isSha256 sha256 = true := by
  unfold snapshotKey at h
  split at h
  · cases h
  next hrange =>
    split at h
    · cases h
    next hsha =>
      cases h
      refine ⟨rfl, by omega, by omega, by simpa using hsha⟩

/-- **The parser inverts the key builder.** -/
theorem parseMaxSeq_snapshotKey {p : Key} {minSeq maxSeq : Nat} {sha256 : JsString} {key : Key}
    (h : snapshotKey p minSeq maxSeq sha256 = .ok key) :
    parseMaxSeqFromCanonicalSnapshotKey key p = some maxSeq := by
  obtain ⟨rfl, hle, hmax, hsha⟩ := snapshotKey_ok h
  have hmin := length_pad (Nat.le_trans hle hmax)
  have hmaxl := length_pad hmax
  have hshal : sha256.length = 64 := by
    simp only [isSha256, decide_eq_true_eq] at hsha
    exact hsha.1
  -- every `take` and `drop` of the parser lands on the boundary of one piece
  have hdash : (js "-").length = 1 := by decide
  have hpre : (snapshotDir p).isPrefixOf (snapshotKeyText p minSeq maxSeq sha256) = true :=
    List.isPrefixOf_iff_prefix.mpr (List.prefix_append _ _)
  unfold parseMaxSeqFromCanonicalSnapshotKey
  rw [hpre]
  simp only [snapshotKeyText, List.drop_left, Bool.not_true, Bool.false_eq_true, if_false]
  simp only [List.take_left' hmin, List.drop_left' hmin, List.take_left' hmaxl,
    List.drop_left' hmaxl, List.take_left' hdash, List.drop_left' hdash, List.take_left' hshal,
    List.drop_left' hshal, hmin, hmaxl, hsha, isDigit_pad, ofDigits_pad, hle, and_self, if_true]

/-- The end of a string after the last occurrence of a unit. -/
theorem takeWhile_reverse_append {u : Fin 65536} {xs ys : JsString} (h : u ∉ ys) :
    ((xs ++ (u :: ys)).reverse.takeWhile (· ≠ u)).reverse = ys := by
  rw [List.reverse_append, List.reverse_cons, List.append_assoc, List.takeWhile_append_of_pos]
  · simp
  · intro v hv
    have hne : v ≠ u := fun he => h (he ▸ List.mem_reverse.mp hv)
    simpa using hne

theorem isDigit_ne {us : JsString} {u : Fin 65536} (h : us.all isDigit = true) (hu : u.val < 48) :
    u ∉ us := by
  intro hmem
  have hd := List.all_eq_true.mp h u hmem
  simp only [isDigit, decide_eq_true_eq] at hd
  omega

theorem isHex_ne {us : JsString} {u : Fin 65536} (h : us.all isHex = true) (hu : u.val < 48) :
    u ∉ us := by
  intro hmem
  have hd := List.all_eq_true.mp h u hmem
  simp only [isHex, isDigit, decide_eq_true_eq] at hd
  omega

/-- **The loader expects the hash the key was built from.** -/
theorem snapshotHashOfKey_snapshotKey {p : Key} {minSeq maxSeq : Nat} {sha256 : JsString}
    {key : Key} (h : snapshotKey p minSeq maxSeq sha256 = .ok key) :
    snapshotHashOfKey key = sha256 := by
  obtain ⟨rfl, hle, hmax, hsha⟩ := snapshotKey_ok h
  have hhex : sha256.all isHex = true := by
    simp only [isSha256, decide_eq_true_eq] at hsha
    exact hsha.2
  -- no piece of the file name contains a slash
  have hfile : slash ∉ pad minSeq ++ (js "-" ++ (pad maxSeq ++ (js "-" ++ (sha256 ++
      js ".json")))) := by
    have h1 : slash ∉ js "-" := by decide
    have h2 : slash ∉ js ".json" := by decide
    have h3 := isDigit_ne (isDigit_pad minSeq) (u := slash) (by decide)
    have h4 := isDigit_ne (isDigit_pad maxSeq) (u := slash) (by decide)
    have h5 := isHex_ne hhex (u := slash) (by decide)
    simp only [List.mem_append, h1, h2, h3, h4, h5, or_self, not_false_eq_true]
  have hbase : basename (snapshotKeyText p minSeq maxSeq sha256) = pad minSeq ++ (js "-" ++
      (pad maxSeq ++ (js "-" ++ (sha256 ++ js ".json")))) := by
    have hdir : snapshotDir p = p ++ js "/snapshot/L9" ++ [slash] := by
      rw [List.append_assoc]
      rfl
    rw [basename, snapshotKeyText, hdir, List.append_assoc, List.singleton_append]
    exact takeWhile_reverse_append hfile
  have hsplit : pad minSeq ++ (js "-" ++ (pad maxSeq ++ (js "-" ++ (sha256 ++ js ".json")))) =
      (pad minSeq ++ (js "-" ++ (pad maxSeq ++ (js "-" ++ sha256)))) ++ js ".json" := by
    simp only [List.append_assoc]
  have hstem : pad minSeq ++ (js "-" ++ (pad maxSeq ++ (js "-" ++ sha256))) =
      (pad minSeq ++ (js "-" ++ pad maxSeq)) ++ (45 :: sha256) := by
    have hdash : js "-" = [45] := by decide
    simp [hdash]
  have hsuf : (js ".json").isSuffixOf (basename (snapshotKeyText p minSeq maxSeq sha256)) = true := by
    rw [hbase, hsplit, List.isSuffixOf_iff_suffix]
    exact List.suffix_append _ _
  have hlen : (js ".json").length = 5 := by decide
  unfold snapshotHashOfKey
  simp only [hsuf, if_true]
  rw [hbase, hsplit, List.length_append, hlen, Nat.add_sub_cancel, List.take_left, hstem]
  exact takeWhile_reverse_append (isHex_ne hhex (by decide))

/-! ## Bodies -/

/-- `SnapshotBody`; the schema version is the constant one. -/
structure SnapshotBody where
  minSeq : Nat
  maxSeq : Nat
  collection : JsString
  docs : List (JsString × Doc)
  deriving DecidableEq

/-- The encoders and the hash, as functions of what they encode. -/
structure Codec where
  /-- `snapshotHash(encodeSnapshotBody(body))`. -/
  snapshotHash : SnapshotBody → JsString
  /-- `encodeSnapshotBody(body).byteLength`. -/
  snapshotBytes : SnapshotBody → Nat
  /-- The stored byte length of a log entry. -/
  entryBytes : LogEntry → Nat

/-- Step 5 of `compact`: the rows sorted by id.  The ids are distinct, so which stable sort the
    engine runs makes no difference. -/
def sortedDocs (base : Rows) : List (JsString × Doc) :=
  base.entries.insertionSort fun a b => a.1 ≤ b.1

/-- The rows `loadSnapshotAsMap` rebuilds from a body. -/
def loadDocs (docs : List (JsString × Doc)) : Rows :=
  InsMap.ofList docs

theorem get_loadDocs_sortedDocs (base : Rows) (k : JsString) :
    (loadDocs (sortedDocs base)).get k = base.get k := by
  have hperm : (sortedDocs base).Perm base.entries := List.perm_insertionSort _ _
  have hnodup : ((sortedDocs base).map Prod.fst).Nodup :=
    (hperm.map Prod.fst).nodup_iff.mpr base.nodup
  rw [loadDocs, InsMap.get_ofList hnodup]
  refine Option.ext fun v => ?_
  constructor
  · intro hv
    have hmem := InsMap.mem_of_lookup_eq_some hv
    exact InsMap.mem_entries.mp (hperm.mem_iff.mp hmem)
  · intro hv
    exact InsMap.lookup_eq_some_of_mem hnodup (hperm.mem_iff.mpr (InsMap.mem_entries.mpr hv))

end Baerly
