import XmlStream.Text.Utf8
import Mathlib.Data.UInt
/-! Characters. The bytes that spell a character in UTF-8 are read as that character, whichever of
the four lengths they have. -/
namespace XmlStream.Utf8

/-! The byte that leads says how many there are to come and what the next one may be. -/

theorem lead_one {b : Byte} (h : b.toNat ≤ 0x7F) : lead b = .character (Char.ofNat b.toNat) := by
  have hb : b ≤ 0x7F := UInt8.le_iff_toNat_le.2 h
  rw [lead, if_pos hb]

theorem lead_two {b : Byte} (h : 0xC2 ≤ b.toNat) (h' : b.toNat ≤ 0xDF) :
    lead b = .more ⟨1, 0x80, 0xBF, b.toNat - 0xC0⟩ := by
  simp only [lead, UInt8.le_iff_toNat_le, UInt8.lt_iff_toNat_lt]
  grind

theorem lead_three {b : Byte} {n : Nat} (h : 0xE0 ≤ b.toNat) (h' : b.toNat ≤ 0xEF)
    (hlow : b.toNat = 0xE0 → 0xA0 ≤ n) (hhigh : b.toNat = 0xED → n ≤ 0x9F) (hn : 0x80 ≤ n)
    (hn' : n ≤ 0xBF) : ∃ low high : Byte, lead b = .more ⟨2, low, high, b.toNat - 0xE0⟩ ∧
      low.toNat ≤ n ∧ n ≤ high.toNat := by
  simp only [lead, UInt8.le_iff_toNat_le, UInt8.lt_iff_toNat_lt, ← UInt8.toNat_inj]
  by_cases hfirst : b.toNat = 0xE0
  · exact ⟨0xA0, 0xBF, by grind, hlow hfirst, hn'⟩
  by_cases hsurrogate : b.toNat = 0xED
  · exact ⟨0x80, 0x9F, by grind, hn, hhigh hsurrogate⟩
  · exact ⟨0x80, 0xBF, by grind, hn, hn'⟩

theorem lead_four {b : Byte} {n : Nat} (h : 0xF0 ≤ b.toNat) (h' : b.toNat ≤ 0xF4)
    (hlow : b.toNat = 0xF0 → 0x90 ≤ n) (hhigh : b.toNat = 0xF4 → n ≤ 0x8F) (hn : 0x80 ≤ n)
    (hn' : n ≤ 0xBF) : ∃ low high : Byte, lead b = .more ⟨3, low, high, b.toNat - 0xF0⟩ ∧
      low.toNat ≤ n ∧ n ≤ high.toNat := by
  simp only [lead, UInt8.le_iff_toNat_le, UInt8.lt_iff_toNat_lt, ← UInt8.toNat_inj]
  by_cases hfirst : b.toNat = 0xF0
  · exact ⟨0x90, 0xBF, by grind, hlow hfirst, hn'⟩
  by_cases hlast : b.toNat = 0xF4
  · exact ⟨0x80, 0x8F, by grind, hn, hhigh hlast⟩
  · exact ⟨0x80, 0xBF, by grind, hn, hn'⟩

/-! A byte in its range goes on with the character that has been begun. -/

variable {done : Array (Option Char)} {b low high : Byte} {owed value n : Nat}

theorem step_lead (h : lead b = .more ⟨owed, low, high, value⟩) :
    Reading.step ⟨done, none⟩ b = ⟨done, some ⟨owed, low, high, value⟩⟩ := by
  simp only [Reading.step, h, Reading.take]

theorem in_range (hlow : low.toNat ≤ b.toNat) (hhigh : b.toNat ≤ high.toNat) :
    ¬ (b < low ∨ high < b) := by
  rw [UInt8.lt_iff_toNat_lt, UInt8.lt_iff_toNat_lt]
  omega

theorem step_more (hlow : low.toNat ≤ b.toNat) (hhigh : b.toNat ≤ high.toNat) :
    Reading.step ⟨done, some ⟨owed + 2, low, high, value⟩⟩ b =
      ⟨done, some ⟨owed + 1, 0x80, 0xBF, value * 64 + (b.toNat - 0x80)⟩⟩ := by
  have howed : ¬ owed + 2 ≤ 1 := by omega
  simp only [Reading.step, Pending.step, if_neg (in_range hlow hhigh), if_neg howed]
  rfl

theorem step_last (hlow : low.toNat ≤ b.toNat) (hhigh : b.toNat ≤ high.toNat) :
    Reading.step ⟨done, some ⟨1, low, high, value⟩⟩ b =
      ⟨done.push (some (Char.ofNat (value * 64 + (b.toNat - 0x80)))), none⟩ := by
  simp only [Reading.step, Pending.step, if_neg (in_range hlow hhigh), Nat.le_refl, if_true]
  rfl

/-! The bytes that come after the first have six bits each. -/

def tail (n : Nat) : Byte := UInt8.ofNat (n % 64 + 128)

theorem byte_eq_tail (n : Nat) : UInt8.ofNat (n % 64 + 128) = tail n := rfl

theorem toNat_byte (h : n < 256) : (UInt8.ofNat n).toNat = n := by
  rw [UInt8.toNat_ofNat', Nat.mod_eq_of_lt h]

theorem toNat_tail (n : Nat) : (tail n).toNat = n % 64 + 128 :=
  toNat_byte (by omega)

theorem tail_ge (n : Nat) : (0x80 : Byte).toNat ≤ (tail n).toNat := by
  rw [toNat_tail]
  exact Nat.le_add_left ..

theorem tail_le (n : Nat) : (tail n).toNat ≤ (0xBF : Byte).toNat := by
  rw [toNat_tail]
  exact Nat.add_le_add_right (Nat.le_of_lt_succ (Nat.mod_lt n (by decide))) 128

theorem step_more_tail (n : Nat) (hlow : low.toNat ≤ (tail n).toNat)
    (hhigh : (tail n).toNat ≤ high.toNat) :
    Reading.step ⟨done, some ⟨owed + 2, low, high, value⟩⟩ (tail n) =
      ⟨done, some ⟨owed + 1, 0x80, 0xBF, value * 64 + n % 64⟩⟩ := by
  rw [step_more hlow hhigh, toNat_tail, Nat.add_sub_cancel]

theorem step_last_tail (n : Nat) :
    Reading.step ⟨done, some ⟨1, 0x80, 0xBF, value⟩⟩ (tail n) =
      ⟨done.push (some (Char.ofNat (value * 64 + n % 64))), none⟩ := by
  rw [step_last (tail_ge n) (tail_le n), toNat_tail, Nat.add_sub_cancel]

theorem foldl_encodeChar (done : Array (Option Char)) (c : Char) :
    (String.utf8EncodeChar c).foldl Reading.step ⟨done, none⟩ = ⟨done.push (some c), none⟩ := by
  have hvalid : c.toNat < 0xD800 ∨ 0xDFFF < c.toNat ∧ c.toNat < 0x110000 := c.valid
  have hc : Char.ofNat c.toNat = c := Char.ofNat_toNat c
  rw [String.utf8EncodeChar]
  simp only [show c.val.toNat = c.toNat from rfl, byte_eq_tail]
  generalize c.toNat = v at hvalid hc
  split
  · rename_i hone
    have hb : (UInt8.ofNat v).toNat = v := toNat_byte (by omega)
    have hlead := lead_one (hb.trans_le hone)
    rw [hb, hc] at hlead
    simp only [List.foldl_cons, List.foldl_nil, Reading.step, hlead, Reading.take]
  split
  · have hb : (UInt8.ofNat (v / 64 % 32 + 192)).toNat = v / 64 % 32 + 192 := toNat_byte (by omega)
    generalize UInt8.ofNat (v / 64 % 32 + 192) = b at hb
    have hvalue : (b.toNat - 0xC0) * 64 + v % 64 = v := by omega
    rw [List.foldl_cons, step_lead (lead_two (by omega) (by omega)), List.foldl_cons,
      step_last_tail, hvalue, hc, List.foldl_nil]
  split
  · have hb : (UInt8.ofNat (v / 4096 % 16 + 224)).toNat = v / 4096 % 16 + 224 :=
      toNat_byte (by omega)
    generalize UInt8.ofNat (v / 4096 % 16 + 224) = b at hb
    have ht := toNat_tail (v / 64)
    have hvalue : ((b.toNat - 0xE0) * 64 + v / 64 % 64) * 64 + v % 64 = v := by omega
    obtain ⟨low, high, hlead, hlow, hhigh⟩ := lead_three (b := b) (n := (tail (v / 64)).toNat)
      (by omega) (by omega) (by omega) (by omega) (by omega) (by omega)
    rw [List.foldl_cons, step_lead hlead, List.foldl_cons, step_more_tail _ hlow hhigh,
      List.foldl_cons, step_last_tail, hvalue, hc, List.foldl_nil]
  · have hb : (UInt8.ofNat (v / 262144 % 8 + 240)).toNat = v / 262144 % 8 + 240 :=
      toNat_byte (by omega)
    generalize UInt8.ofNat (v / 262144 % 8 + 240) = b at hb
    have ht := toNat_tail (v / 4096)
    have hvalue : (((b.toNat - 0xF0) * 64 + v / 4096 % 64) * 64 + v / 64 % 64) * 64 + v % 64 = v := by
      omega
    obtain ⟨low, high, hlead, hlow, hhigh⟩ := lead_four (b := b) (n := (tail (v / 4096)).toNat)
      (by omega) (by omega) (by omega) (by omega) (by omega) (by omega)
    rw [List.foldl_cons, step_lead hlead, List.foldl_cons, step_more_tail _ hlow hhigh,
      List.foldl_cons, step_more_tail _ (tail_ge _) (tail_le _), List.foldl_cons, step_last_tail,
      hvalue, hc, List.foldl_nil]

theorem read_encodeChar (c : Char) : read (String.utf8EncodeChar c) = [some c] := by
  rw [read, foldl_encodeChar]
  rfl

theorem decode?_encodeChar (c : Char) :
    decode? (String.utf8EncodeChar c) = some (String.singleton c) := by
  rw [decode?, read_encodeChar]
  rfl

end XmlStream.Utf8
