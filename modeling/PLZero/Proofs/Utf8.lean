import PLZero.Text.Utf8
import Mathlib.Data.String.Basic
import Mathlib.Tactic.SplitIfs

/-! Texts and their bytes. The code of a character is one byte below 128, or a byte of at least 192
and continuation bytes behind it. So the bytes of a text can be taken character by character, and
reading them back gives the text without any replacement character. -/

namespace PLZero.Text

theorem toUTF8_toList (s : String) : s.toUTF8.data.toList = bytes s := by
  rw [String.toUTF8_eq_toByteArray, ← String.utf8Encode_toList]
  simp [List.utf8Encode, bytes, encode]

theorem encode_cons (c : Char) (cs : List Char) :
    encode (c :: cs) = String.utf8EncodeChar c ++ encode cs := List.flatMap_cons

theorem encode_append (cs ds : List Char) : encode (cs ++ ds) = encode cs ++ encode ds :=
  List.flatMap_append

theorem encodeChar_ne_nil (c : Char) : String.utf8EncodeChar c ≠ [] := by
  rw [← List.length_pos_iff, String.length_utf8EncodeChar]
  exact c.utf8Size_pos

theorem codePoint_lt (c : Char) : c.val.toNat < 0x110000 := by
  have hvalid := c.valid
  simp only [UInt32.isValidChar, Nat.isValidChar] at hvalid
  omega

theorem isContinuation_ofNat {n : Nat} (hn : n < 256) :
    isContinuation (UInt8.ofNat n) = true ↔ 128 ≤ n ∧ n < 192 := by
  have hbytes : ∀ n < 256, isContinuation (UInt8.ofNat n) = decide (128 ≤ n ∧ n < 192) := by
    decide +kernel
  rw [hbytes n hn, decide_eq_true_iff]

/-- A character of ASCII is its own byte. Of another one all bytes are larger, and all but the
first continue it. -/
theorem encode_cases (c : Char) :
    c.toNat < 128 ∧ String.utf8EncodeChar c = [UInt8.ofNat c.toNat] ∨
    128 ≤ c.toNat ∧ ∃ n tail, String.utf8EncodeChar c = UInt8.ofNat n :: tail ∧ 192 ≤ n ∧ n < 256 ∧
      ∀ b ∈ tail, isContinuation b = true ∧ 128 ≤ b.toNat := by
  have hcontinues : ∀ n, isContinuation (UInt8.ofNat (n % 64 + 128)) = true ∧
      128 ≤ (UInt8.ofNat (n % 64 + 128)).toNat := by
    intro n
    rw [isContinuation_ofNat (by omega), UInt8.toNat_ofNat_of_lt' (by omega : n % 64 + 128 < 256)]
    omega
  have hlt := codePoint_lt c
  have hnat : c.toNat = c.val.toNat := rfl
  unfold String.utf8EncodeChar
  rw [hnat]
  simp only
  split_ifs with hone htwo hthree
  · exact .inl ⟨by omega, rfl⟩
  all_goals
    refine .inr ⟨by omega, _, _, rfl, by omega, by omega, ?_⟩
    simp only [List.forall_mem_cons, List.not_mem_nil, false_implies, implies_true, and_true]
    simp only [hcontinues, and_self]

theorem decode_cons_none (n : Nat) (hn : n < 256) (bs : List UInt8) :
    decode none (UInt8.ofNat n :: bs) = (leading n).1 ++ decode (leading n).2 bs := by
  rw [decode, UInt8.toNat_ofNat_of_lt' hn, decodeByte]

/-- A byte within the bounds adds its digit to the code that has begun. -/
theorem decode_cons_some {p : Pending} {n : Nat} (hn : n < 256) (h : p.low ≤ n ∧ n ≤ p.high)
    (bs : List UInt8) :
    decode (some p) (UInt8.ofNat n :: bs) =
      if p.more = 0 then Char.ofNat (64 * p.value + n % 64) :: decode none bs
      else decode (some ⟨0x80, 0xBF, p.more - 1, 64 * p.value + n % 64⟩) bs := by
  rw [decode, UInt8.toNat_ofNat_of_lt' hn, decodeByte, if_pos h]
  obtain ⟨low, high, more, value⟩ := p
  cases more <;> rfl

/-- The code of a character is read as the character, whatever follows. -/
theorem decode_encodeChar (c : Char) (bs : List UInt8) :
    decode none (String.utf8EncodeChar c ++ bs) = c :: decode none bs := by
  have hvalid := c.valid
  have hchar : Char.ofNat c.val.toNat = c := Char.ofNat_toNat c
  simp only [UInt32.isValidChar, Nat.isValidChar] at hvalid
  unfold String.utf8EncodeChar
  conv_rhs => rw [← hchar]
  generalize c.val.toNat = v at hvalid ⊢
  simp only
  split_ifs with hone htwo hthree <;> simp only [List.cons_append, List.nil_append]
  · rw [decode_cons_none _ (by omega), leading, if_pos (by omega)]
    rfl
  · rw [decode_cons_none _ (by omega), leading, if_neg (by omega), if_neg (by omega),
      if_pos (by omega), decode_cons_some (by omega) (by simp only; omega)]
    simp only [List.nil_append, if_true]
    congr 2
    omega
  · rw [decode_cons_none _ (by omega), leading, if_neg (by omega), if_neg (by omega),
      if_neg (by omega), if_pos (by omega), List.nil_append,
      decode_cons_some (by omega) (by simp only; split_ifs <;> omega), if_neg (by simp only; omega),
      decode_cons_some (by omega) (by simp only; omega)]
    simp only [if_true]
    congr 2
    omega
  · rw [decode_cons_none _ (by omega), leading, if_neg (by omega), if_neg (by omega),
      if_neg (by omega), if_neg (by omega), if_pos (by omega), List.nil_append,
      decode_cons_some (by omega) (by simp only; split_ifs <;> omega), if_neg (by simp only; omega),
      decode_cons_some (by omega) (by simp only; omega), if_neg (by simp only; omega),
      decode_cons_some (by omega) (by simp only; omega)]
    simp only [if_true]
    congr 2
    omega

theorem decode_encode (cs : List Char) : decode none (encode cs) = cs := by
  induction cs with
  | nil => rfl
  | cons c cs ih => rw [encode_cons, decode_encodeChar, ih]

/-- The bytes of a text stand for that text. -/
theorem lossy_encode (cs : List Char) : lossy (encode cs) = String.ofList cs := by
  rw [lossy, decode_encode]

theorem encode_inj {cs ds : List Char} (h : encode cs = encode ds) : cs = ds := by
  rw [← decode_encode cs, h, decode_encode]

/-- Behind a character nothing continues it. -/
theorem continuation_encode {tail : List UInt8} (htail : ∀ b ∈ tail, isContinuation b = true)
    (cs : List Char) : (tail ++ encode cs).takeWhile isContinuation = tail ∧
      (tail ++ encode cs).dropWhile isContinuation = encode cs := by
  have hhead : (encode cs).takeWhile isContinuation = [] ∧
      (encode cs).dropWhile isContinuation = encode cs := by
    cases cs with
    | nil => exact ⟨rfl, rfl⟩
    | cons c cs =>
      have hfirst : ∃ n bs, encode (c :: cs) = UInt8.ofNat n :: bs ∧ n < 256 ∧
          (n < 128 ∨ 192 ≤ n) := by
        rw [encode_cons]
        obtain ⟨hc, hcode⟩ | ⟨-, n, tail, hcode, hn, hlt, -⟩ := encode_cases c
        · exact ⟨_, _, by rw [hcode]; rfl, by omega, .inl hc⟩
        · exact ⟨n, _, by rw [hcode]; rfl, hlt, .inr hn⟩
      obtain ⟨n, bs, hcode, hlt, hn⟩ := hfirst
      have hnot : ¬isContinuation (UInt8.ofNat n) = true := by
        rw [isContinuation_ofNat hlt]
        omega
      rw [hcode, List.takeWhile_cons_of_neg hnot, List.dropWhile_cons_of_neg hnot]
      exact ⟨rfl, rfl⟩
  rw [List.takeWhile_append_of_pos htail, List.dropWhile_append_of_pos htail, hhead.1, hhead.2]
  exact ⟨List.append_nil tail, rfl⟩

end PLZero.Text
