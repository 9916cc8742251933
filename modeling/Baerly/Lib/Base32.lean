import Mathlib.Order.Basic
import Baerly.Lib.Width
import Mathlib.Data.Fin.Basic
import Mathlib.Tactic.IntervalCases

/-
  Base-32 text of a byte string, and why it sorts like the bytes.

  PROGRAM: the streaming encoder.  Bytes are shifted into an accumulator of 32 bits; whenever five
  or more of its bits are pending, the highest five leave as a digit; at the end the pending bits
  are padded with zeros on the right.

  SPEC (`encode_strictMono`): the digits of two byte strings compare as the strings do.  So a range of
  byte strings is a range of texts.

  CRUX: of the accumulator only the pending bits count.  The first digit that leaves has the pending
  bits on top (`encodeFrom_head`), so two streams whose pending bits differ are decided by their
  next digit, whatever follows.
-/

namespace Base32

/-! ## The encoder -/

/-- `while (bits >= 5)`: the digits that leave, and how many bits stay pending. -/
def drain (value : Nat) : (bits : Nat) → List (Fin 32) × Nat
  | bits + 5 => (Fin.ofNat 32 (value / 2 ^ bits) :: (drain value bits).1, (drain value bits).2)
  | bits => ([], bits)

/-- The loop over the bytes, with the accumulator and the number of its pending bits. -/
def encodeFrom : (value bits : Nat) → List (Fin 256) → List (Fin 32)
  | value, bits, [] => if 0 < bits then [Fin.ofNat 32 (value * 2 ^ (5 - bits))] else []
  | value, bits, b :: bs =>
    let next := (value * 256 + b.val) % 2 ^ 32
    (drain next (bits + 8)).1 ++ encodeFrom next (drain next (bits + 8)).2 bs

/-- The digits of a byte string. -/
def encode (bytes : List (Fin 256)) : List (Fin 32) := encodeFrom 0 0 bytes

/-! ## The first digit -/

theorem ofNat_val (n : Nat) : (Fin.ofNat 32 n).val = n % 32 := rfl

/-- The accumulator after one more byte. -/
def push (value : Nat) (b : Fin 256) : Nat := (value * 256 + b.val) % 4294967296

/-- One byte: the digits it completes, by the number of bits that were pending. -/
theorem encodeFrom_cons (value : Nat) (b : Fin 256) (bs : List (Fin 256)) :
    (encodeFrom value 0 (b :: bs) = Fin.ofNat 32 (push value b / 8) ::
      encodeFrom (push value b) 3 bs) ∧
    (encodeFrom value 1 (b :: bs) = Fin.ofNat 32 (push value b / 16) ::
      encodeFrom (push value b) 4 bs) ∧
    (encodeFrom value 2 (b :: bs) = Fin.ofNat 32 (push value b / 32) ::
      Fin.ofNat 32 (push value b / 1) :: encodeFrom (push value b) 0 bs) ∧
    (encodeFrom value 3 (b :: bs) = Fin.ofNat 32 (push value b / 64) ::
      Fin.ofNat 32 (push value b / 2) :: encodeFrom (push value b) 1 bs) ∧
    (encodeFrom value 4 (b :: bs) = Fin.ofNat 32 (push value b / 128) ::
      Fin.ofNat 32 (push value b / 4) :: encodeFrom (push value b) 2 bs) :=
  ⟨rfl, rfl, rfl, rfl, rfl⟩

/-- The digit that leaves next has the pending bits on top. -/
theorem encodeFrom_head (value : Nat) {bits : Nat} (hpos : 0 < bits) (hlt : bits < 5)
    (bytes : List (Fin 256)) : ∃ d ds, encodeFrom value bits bytes = d :: ds ∧
      d.val / 2 ^ (5 - bits) = value % 2 ^ bits := by
  cases bytes with
  | nil =>
    refine ⟨Fin.ofNat 32 (value * 2 ^ (5 - bits)), [], by rw [encodeFrom, if_pos hpos], ?_⟩
    rw [ofNat_val]
    interval_cases bits <;> omega
  | cons b bs =>
    have hb := b.isLt
    obtain ⟨-, h1, h2, h3, h4⟩ := encodeFrom_cons value b bs
    unfold push at h1 h2 h3 h4
    interval_cases bits
    · exact ⟨_, _, h1, by rw [ofNat_val]; omega⟩
    · exact ⟨_, _, h2, by rw [ofNat_val]; omega⟩
    · exact ⟨_, _, h3, by rw [ofNat_val]; omega⟩
    · exact ⟨_, _, h4, by rw [ofNat_val]; omega⟩

/-- Two streams whose pending bits differ are decided by their next digit. -/
theorem encodeFrom_lt_of_pending {v w bits : Nat} (hpos : 0 < bits) (hlt : bits < 5)
    (h : v % 2 ^ bits < w % 2 ^ bits) (bs cs : List (Fin 256)) :
    encodeFrom v bits bs < encodeFrom w bits cs := by
  obtain ⟨d, ds, hd, hdv⟩ := encodeFrom_head v hpos hlt bs
  obtain ⟨e, es, he, hew⟩ := encodeFrom_head w hpos hlt cs
  rw [hd, he, List.cons_lt_cons_iff]
  left
  rw [← hdv, ← hew] at h
  show d.val < e.val
  exact Nat.lt_of_div_lt_div h

/-! ## Order -/

theorem cons_lt_cons_of_le {d e : Fin 32} {ds es : List (Fin 32)} (hle : d.val ≤ e.val)
    (h : d.val = e.val → ds < es) : d :: ds < e :: es := by
  rw [List.cons_lt_cons_iff]
  rcases Nat.lt_or_eq_of_le hle with hlt | heq
  · exact Or.inl hlt
  · exact Or.inr ⟨Fin.ext heq, h heq⟩

/-- A smaller byte on the same pending bits gives a smaller text. -/
theorem encodeFrom_cons_lt {v w bits : Nat} (hlt : bits < 5) (hvw : v % 2 ^ bits = w % 2 ^ bits)
    {b c : Fin 256} (h : b < c) (bs cs : List (Fin 256)) :
    encodeFrom v bits (b :: bs) < encodeFrom w bits (c :: cs) := by
  have hb := b.isLt
  have hc := c.isLt
  have hbc : b.val < c.val := h
  obtain ⟨b0, b1, b2, b3, b4⟩ := encodeFrom_cons v b bs
  obtain ⟨c0, c1, c2, c3, c4⟩ := encodeFrom_cons w c cs
  have hx : push v b = (v * 256 + b.val) % 4294967296 := rfl
  have hy : push w c = (w * 256 + c.val) % 4294967296 := rfl
  -- either a digit the byte completes decides, or the bits it leaves pending do
  interval_cases bits
  · rw [b0, c0]
    refine cons_lt_cons_of_le (by rw [ofNat_val, ofNat_val]; omega) fun heq => ?_
    rw [ofNat_val, ofNat_val] at heq
    exact encodeFrom_lt_of_pending (by decide) (by decide) (by omega) bs cs
  · rw [b1, c1]
    refine cons_lt_cons_of_le (by rw [ofNat_val, ofNat_val]; omega) fun heq => ?_
    rw [ofNat_val, ofNat_val] at heq
    exact encodeFrom_lt_of_pending (by decide) (by decide) (by omega) bs cs
  · rw [b2, c2]
    refine cons_lt_cons_of_le (by rw [ofNat_val, ofNat_val]; omega) fun heq => ?_
    rw [ofNat_val, ofNat_val] at heq
    refine cons_lt_cons_of_le (by rw [ofNat_val, ofNat_val]; omega) fun heq' => ?_
    rw [ofNat_val, ofNat_val] at heq'
    omega
  · rw [b3, c3]
    refine cons_lt_cons_of_le (by rw [ofNat_val, ofNat_val]; omega) fun heq => ?_
    rw [ofNat_val, ofNat_val] at heq
    refine cons_lt_cons_of_le (by rw [ofNat_val, ofNat_val]; omega) fun heq' => ?_
    rw [ofNat_val, ofNat_val] at heq'
    exact encodeFrom_lt_of_pending (by decide) (by decide) (by omega) bs cs
  · rw [b4, c4]
    refine cons_lt_cons_of_le (by rw [ofNat_val, ofNat_val]; omega) fun heq => ?_
    rw [ofNat_val, ofNat_val] at heq
    refine cons_lt_cons_of_le (by rw [ofNat_val, ofNat_val]; omega) fun heq' => ?_
    rw [ofNat_val, ofNat_val] at heq'
    exact encodeFrom_lt_of_pending (by decide) (by decide) (by omega) bs cs

/-- The end of the bytes is below any further byte. -/
theorem encodeFrom_nil_lt {v w bits : Nat} (hlt : bits < 5) (hvw : v % 2 ^ bits = w % 2 ^ bits)
    (c : Fin 256) (cs : List (Fin 256)) :
    encodeFrom v bits [] < encodeFrom w bits (c :: cs) := by
  have hc := c.isLt
  obtain ⟨c0, c1, c2, c3, c4⟩ := encodeFrom_cons w c cs
  have hy : push w c = (w * 256 + c.val) % 4294967296 := rfl
  have hend : ∀ k, 0 < k → encodeFrom v k [] = [Fin.ofNat 32 (v * 2 ^ (5 - k))] := by
    intro k hk
    rw [encodeFrom, if_pos hk]
  interval_cases bits
  · rw [c0]
    exact List.nil_lt_cons _ _
  · rw [c1, hend 1 (by decide)]
    refine cons_lt_cons_of_le (by rw [ofNat_val, ofNat_val]; omega) fun _ => ?_
    obtain ⟨d, ds, hd, -⟩ := @encodeFrom_head (push w c) 4 (by decide) (by decide) cs
    rw [hd]
    exact List.nil_lt_cons d ds
  · rw [c2, hend 2 (by decide)]
    refine cons_lt_cons_of_le (by rw [ofNat_val, ofNat_val]; omega) fun _ => ?_
    exact List.nil_lt_cons _ _
  · rw [c3, hend 3 (by decide)]
    refine cons_lt_cons_of_le (by rw [ofNat_val, ofNat_val]; omega) fun _ => ?_
    exact List.nil_lt_cons _ _
  · rw [c4, hend 4 (by decide)]
    refine cons_lt_cons_of_le (by rw [ofNat_val, ofNat_val]; omega) fun _ => ?_
    exact List.nil_lt_cons _ _

/-- The same byte on the same pending bits completes the same digits. -/
theorem encodeFrom_cons_same {v w bits : Nat} (hlt : bits < 5) (hvw : v % 2 ^ bits = w % 2 ^ bits)
    (b : Fin 256) {bs cs : List (Fin 256)}
    (ih : ∀ {x y k : Nat}, k < 5 → x % 2 ^ k = y % 2 ^ k → encodeFrom x k bs < encodeFrom y k cs) :
    encodeFrom v bits (b :: bs) < encodeFrom w bits (b :: cs) := by
  have hb := b.isLt
  obtain ⟨b0, b1, b2, b3, b4⟩ := encodeFrom_cons v b bs
  obtain ⟨c0, c1, c2, c3, c4⟩ := encodeFrom_cons w b cs
  have hx : push v b = (v * 256 + b.val) % 4294967296 := rfl
  have hy : push w b = (w * 256 + b.val) % 4294967296 := rfl
  interval_cases bits
  · rw [b0, c0]
    refine cons_lt_cons_of_le (by rw [ofNat_val, ofNat_val]; omega) fun _ => ?_
    exact ih (by decide) (by omega)
  · rw [b1, c1]
    refine cons_lt_cons_of_le (by rw [ofNat_val, ofNat_val]; omega) fun _ => ?_
    exact ih (by decide) (by omega)
  · rw [b2, c2]
    refine cons_lt_cons_of_le (by rw [ofNat_val, ofNat_val]; omega) fun _ => ?_
    refine cons_lt_cons_of_le (by rw [ofNat_val, ofNat_val]; omega) fun _ => ?_
    exact ih (by decide) (by omega)
  · rw [b3, c3]
    refine cons_lt_cons_of_le (by rw [ofNat_val, ofNat_val]; omega) fun _ => ?_
    refine cons_lt_cons_of_le (by rw [ofNat_val, ofNat_val]; omega) fun _ => ?_
    exact ih (by decide) (by omega)
  · rw [b4, c4]
    refine cons_lt_cons_of_le (by rw [ofNat_val, ofNat_val]; omega) fun _ => ?_
    refine cons_lt_cons_of_le (by rw [ofNat_val, ofNat_val]; omega) fun _ => ?_
    exact ih (by decide) (by omega)

/-- The induction: on the bytes, with any pending bits the two streams share. -/
theorem encodeFrom_lt {bs cs : List (Fin 256)} (h : bs < cs) : ∀ {v w bits : Nat}, bits < 5 →
    v % 2 ^ bits = w % 2 ^ bits → encodeFrom v bits bs < encodeFrom w bits cs := by
  induction bs generalizing cs with
  | nil =>
    intro v w bits hlt hvw
    cases cs with
    | nil => exact absurd h (lt_irrefl _)
    | cons c cs => exact encodeFrom_nil_lt hlt hvw c cs
  | cons b bs ih =>
    intro v w bits hlt hvw
    cases cs with
    | nil => exact absurd h (List.not_lt_nil _)
    | cons c cs =>
      rcases List.cons_lt_cons_iff.mp h with hbc | ⟨rfl, hrest⟩
      · exact encodeFrom_cons_lt hlt hvw hbc bs cs
      · exact encodeFrom_cons_same hlt hvw b fun hk hxy => ih hrest hk hxy

/-- **The texts sort as the bytes do.** -/
theorem encode_strictMono : StrictMono encode :=
  fun _ _ h => encodeFrom_lt h (by decide) rfl

end Base32
