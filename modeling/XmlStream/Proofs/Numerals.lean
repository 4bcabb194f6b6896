import Mathlib.Data.Nat.Digits.Defs
import Mathlib.Data.List.Forall2
import XmlStream.Reference
import XmlStream.Proofs.Characters
/-! Numerals. A reference by number denotes the character whose code its digits spell, however many
they are; and it makes no difference whether the number is kept in full or in a word that it may
turn out not to fit in. -/
namespace XmlStream.Reference
open List (Forall₂)

inductive Digit (base : Nat) (b : Byte) (d : Nat) : Prop
  | figure : d < base → d < 10 → b.toNat = '0'.toNat + d → Digit base b d
  | small : d < base → 10 ≤ d → b.toNat = 'a'.toNat + (d - 10) → Digit base b d
  | capital : d < base → 10 ≤ d → b.toNat = 'A'.toNat + (d - 10) → Digit base b d

theorem Digit.lt {base : Nat} {b : Byte} {d : Nat} (h : Digit base b d) : d < base := by
  cases h <;> assumption

/-- At least one digit, and the number that they denote, the last one being that of the ones. -/
def Numeral (base : Nat) (digits : Bytes) (n : Nat) : Prop :=
  digits ≠ [] ∧ ∃ ds, Forall₂ (Digit base) digits ds ∧ Nat.ofDigits base ds.reverse = n

inductive Numbers : Bytes → Nat → Prop
  | decimal {digits n} : Numeral 10 digits n → Numbers (.hash :: digits) n
  | hexadecimal {x digits n} : x = 120 ∨ x = 88 → Numeral 16 digits n →
      Numbers (.hash :: x :: digits) n

def IsCode (n : Nat) : Prop := n ≤ 0x10FFFF ∧ ¬ (0xD800 ≤ n ∧ n ≤ 0xDFFF)

theorem decimalDigit?_eq_some_iff {b : Byte} {d : Nat} :
    decimalDigit? b = some d ↔ Digit 10 b d := by
  have hlt := b.toNat_lt
  simp only [decimalDigit?, Byte.isDigit, Bool.and_eq_true, decide_eq_true_eq,
    UInt8.le_iff_toNat_le]
  constructor
  · intro h
    split at h
    · cases h
      refine .figure ?_ ?_ ?_ <;> grind
    · cases h
  · rintro (⟨h₁, h₂, hb⟩ | ⟨h₁, h₂, -⟩ | ⟨h₁, h₂, -⟩)
    · grind
    · omega
    · omega

theorem hexDigit?_eq_some_iff {b : Byte} {d : Nat} : hexDigit? b = some d ↔ Digit 16 b d := by
  have hlt := b.toNat_lt
  simp only [hexDigit?, Byte.isDigit, Bool.and_eq_true, decide_eq_true_eq,
    UInt8.le_iff_toNat_le]
  constructor
  · intro h
    split at h
    · cases h
      refine .figure ?_ ?_ ?_ <;> grind
    split at h
    · cases h
      refine .small ?_ ?_ ?_ <;> grind
    split at h
    · cases h
      refine .capital ?_ ?_ ?_ <;> grind
    · cases h
  · rintro (⟨h₁, h₂, hb⟩ | ⟨h₁, h₂, hb⟩ | ⟨h₁, h₂, hb⟩) <;> grind

/-! What a numeral denotes, digit by digit from the left, is what its digits are worth by their places. -/

theorem foldl_eq_ofDigits (base : Nat) (ds : List Nat) :
    ds.foldl (fun n d => n * base + d) 0 = Nat.ofDigits base ds.reverse := by
  rw [Nat.ofDigits_eq_foldr, List.foldr_reverse]
  congr 1
  funext n d
  rw [Nat.cast_id, Nat.mul_comm, Nat.add_comm]

variable {base n : Nat} {digit? : Byte → Option Nat} {digits : Bytes} {ds : List Nat}

theorem mapM_eq_some_iff (hdigit : ∀ b d, digit? b = some d ↔ Digit base b d) :
    digits.mapM digit? = some ds ↔ Forall₂ (Digit base) digits ds := by
  induction digits generalizing ds with
  | nil => simp [eq_comm]
  | cons b digits ih =>
    cases ds with
    | nil => simp [Option.bind_eq_some_iff]
    | cons d ds => simp [Option.bind_eq_some_iff, List.forall₂_cons, hdigit, ih]

theorem numeral?_eq_some_iff (hdigit : ∀ b d, digit? b = some d ↔ Digit base b d) :
    numeral? base digit? digits = some n ↔ Numeral base digits n := by
  simp only [numeral?, List.isEmpty_iff, Numeral, ← mapM_eq_some_iff hdigit, ← foldl_eq_ofDigits]
  split
  · simp [*]
  · simp [*]

theorem isCode_iff : IsCode n ↔ n.isValidChar := by
  simp only [IsCode, Nat.isValidChar]
  omega

theorem character?_eq_some_iff {c : Char} : character? n = some c ↔ IsCode n ∧ c.toNat = n := by
  rw [isCode_iff, character?]
  split
  · rename_i hn
    simp only [Option.some.injEq, hn, true_and]
    constructor
    · rintro rfl
      rw [Char.ofNat, dif_pos hn]
      rfl
    · rintro rfl
      exact Char.ofNat_toNat c
  · rename_i hn
    simp [hn]

theorem not_decimal_of_mark {x : Byte} (hx : x = 120 ∨ x = 88) :
    ¬ Numeral 10 (x :: digits) n := by
  rintro ⟨-, ds, hds, -⟩
  obtain ⟨d, ds, hd, -, rfl⟩ := List.forall₂_cons_left_iff.1 hds
  have hdigit := decimalDigit?_eq_some_iff.2 hd
  obtain rfl | rfl := hx <;> cases hdigit

theorem numbers_marked_iff {x : Byte} (hx : x = 120 ∨ x = 88) :
    Numbers (.hash :: x :: digits) n ↔ Numeral 16 digits n := by
  constructor
  · intro h
    cases h with
    | decimal h => exact absurd h (not_decimal_of_mark hx)
    | hexadecimal _ h => exact h
  · exact .hexadecimal hx

theorem numbers_unmarked_iff (hx : ¬ (digits.head? = some 120 ∨ digits.head? = some 88)) :
    Numbers (.hash :: digits) n ↔ Numeral 10 digits n := by
  constructor
  · intro h
    cases h with
    | decimal h => exact h
    | hexadecimal hmark =>
      simp only [List.head?_cons, Option.some.injEq] at hx
      exact absurd hmark hx
  · exact .decimal

theorem numbered?_eq_some_iff {name : Bytes} {c : Char} :
    numbered? name = some c ↔ ∃ n, Numbers name n ∧ IsCode n ∧ c.toNat = n := by
  match name with
  | [] =>
    simp only [numbered?, reduceCtorEq, false_iff, not_exists, not_and]
    rintro n ⟨⟩
  | b :: digits =>
    by_cases hb : b = .hash
    · subst hb
      simp only [numbered?, ne_eq, not_true_eq_false, if_false]
      by_cases hx : digits.head? = some 120 ∨ digits.head? = some 88
      · obtain ⟨x, digits, rfl⟩ : ∃ x ds, digits = x :: ds := by
          cases digits with
          | nil => simp at hx
          | cons x ds => exact ⟨x, ds, rfl⟩
        simp only [hx, if_true, List.drop_one, List.tail_cons, Option.bind_eq_some_iff,
          numeral?_eq_some_iff fun _ _ => hexDigit?_eq_some_iff, character?_eq_some_iff]
        simp only [List.head?_cons, Option.some.injEq] at hx
        simp only [numbers_marked_iff hx]
      · simp only [hx, if_false, Option.bind_eq_some_iff, character?_eq_some_iff,
          numeral?_eq_some_iff fun _ _ => decimalDigit?_eq_some_iff, numbers_unmarked_iff hx]
    · simp only [numbered?, ne_eq, hb, not_false_eq_true, if_true, reduceCtorEq, false_iff,
        not_exists, not_and]
      rintro n ⟨⟩ <;> exact absurd rfl hb

theorem numbered?_eq_none_iff {name : Bytes} :
    numbered? name = none ↔ ∀ n, Numbers name n → ¬ IsCode n := by
  constructor
  · intro h n hn hcode
    obtain ⟨c, hc⟩ : ∃ c, character? n = some c := ⟨_, if_pos (isCode_iff.1 hcode)⟩
    have hc := (character?_eq_some_iff.1 hc).2
    rw [numbered?_eq_some_iff.2 ⟨n, hn, hcode, hc⟩] at h
    cases h
  · intro h
    refine Option.eq_none_iff_forall_ne_some.2 fun c hc => ?_
    obtain ⟨n, hn, hcode, -⟩ := numbered?_eq_some_iff.1 hc
    exact h n hn hcode

/-! A word of 32 bits does as well. -/

def mul? (a b : UInt32) : Option UInt32 := if a.toNat * b.toNat < 2 ^ 32 then some (a * b) else none

def add? (a b : UInt32) : Option UInt32 := if a.toNat + b.toNat < 2 ^ 32 then some (a + b) else none

def pushDigit? (base : UInt32) (digit? : Byte → Option Nat) (n : UInt32) (b : Byte) :
    Option UInt32 := do
  let d ← digit? b
  let product ← mul? n base
  add? product (UInt32.ofNat d)

def word? (base : UInt32) (digit? : Byte → Option Nat) (digits : Bytes) : Option UInt32 :=
  if digits.isEmpty then none else digits.foldlM (pushDigit? base digit?) 0

def numberedWord? : Bytes → Option Char
  | [] => none
  | b :: digits =>
    if b ≠ .hash then none
    else if digits.head? = some 120 ∨ digits.head? = some 88 then
      (word? 16 hexDigit? (digits.drop 1)).bind fun n => character? n.toNat
    else (word? 10 decimalDigit? digits).bind fun n => character? n.toNat

def fit? (n : Nat) : Option UInt32 := if n < 2 ^ 32 then some (UInt32.ofNat n) else none

theorem mul?_eq (a b : UInt32) : mul? a b = fit? (a.toNat * b.toNat) := by
  simp [mul?, fit?]

theorem add?_eq (a b : UInt32) : add? a b = fit? (a.toNat + b.toNat) := by
  simp [add?, fit?]

theorem toNat_of_fit {w : UInt32} (h : fit? n = some w) : w.toNat = n := by
  simp only [fit?, Option.ite_none_right_eq_some, Option.some.injEq] at h
  obtain ⟨hn, rfl⟩ := h
  exact UInt32.toNat_ofNat_of_lt' hn

theorem fit_toNat (w : UInt32) : fit? w.toNat = some w := by
  rw [fit?, if_pos w.toNat_lt, UInt32.ofNat_toNat]

theorem fit_none {m : Nat} (h : fit? m = none) (hm : m ≤ n) : fit? n = none := by
  simp only [fit?, ite_eq_right_iff, reduceCtorEq, imp_false] at h ⊢
  omega

theorem pushDigit?_eq {base w : UInt32} {b : Byte} {d : Nat} (hd : digit? b = some d)
    (hfit : d < base.toNat) : pushDigit? base digit? w b = fit? (w.toNat * base.toNat + d) := by
  have hword : (UInt32.ofNat d).toNat = d :=
    UInt32.toNat_ofNat_of_lt' (hfit.trans base.toNat_lt)
  simp only [pushDigit?, hd, mul?_eq, add?_eq, Option.bind_eq_bind, Option.bind_some, hword]
  cases hproduct : fit? (w.toNat * base.toNat) with
  | none => exact (fit_none hproduct (Nat.le_add_right ..)).symm
  | some product => rw [Option.bind_some, toNat_of_fit hproduct]

theorem le_foldl (hbase : 1 ≤ base) (n : Nat) (ds : List Nat) :
    n ≤ ds.foldl (fun n d => n * base + d) n := by
  induction ds generalizing n with
  | nil => exact Nat.le_refl n
  | cons d ds ih =>
    calc
      n ≤ n * base := Nat.le_mul_of_pos_right n hbase
      _ ≤ n * base + d := Nat.le_add_right ..
      _ ≤ _ := ih _

/-- Digits are put behind a word until it overflows, and a number that does not fit never comes to
fit again. -/
theorem foldlM_pushDigit {base : UInt32} (hdigit : ∀ b d, digit? b = some d → d < base.toNat)
    (hbase : 1 ≤ base.toNat) (digits : Bytes) (w : UInt32) :
    digits.foldlM (pushDigit? base digit?) w = (digits.mapM digit?).bind fun ds =>
      fit? (ds.foldl (fun n d => n * base.toNat + d) w.toNat) := by
  induction digits generalizing w with
  | nil => exact (fit_toNat w).symm
  | cons b digits ih =>
    rw [List.foldlM_cons, List.mapM_cons]
    cases hd : digit? b with
    | none =>
      have hpush : pushDigit? base digit? w b = none := by simp [pushDigit?, hd]
      rw [hpush]
      rfl
    | some d =>
      rw [pushDigit?_eq hd (hdigit b d hd)]
      cases hnext : fit? (w.toNat * base.toNat + d) with
      | some next =>
        have hnext := toNat_of_fit hnext
        simp only [Option.bind_eq_bind, Option.bind_some, ih, hnext]
        cases digits.mapM digit? <;> rfl
      | none =>
        have hover (ds : List Nat) := fit_none hnext (le_foldl hbase _ ds)
        cases digits.mapM digit? with
        | none => rfl
        | some ds => exact (hover ds).symm

theorem word?_eq {base : UInt32} (hdigit : ∀ b d, digit? b = some d → d < base.toNat)
    (hbase : 1 ≤ base.toNat) (digits : Bytes) :
    word? base digit? digits = (numeral? base.toNat digit? digits).bind fit? := by
  rw [word?, numeral?]
  split
  · rfl
  · rw [foldlM_pushDigit hdigit hbase]
    cases digits.mapM digit? <;> rfl

theorem character?_fit (n : Nat) :
    ((fit? n).bind fun w => character? w.toNat) = character? n := by
  cases hn : fit? n with
  | some w => rw [Option.bind_some, toNat_of_fit hn]
  | none =>
    simp only [fit?, ite_eq_right_iff, reduceCtorEq, imp_false] at hn
    have hcode : ¬ n.isValidChar := by
      simp only [Nat.isValidChar]
      omega
    rw [Option.bind_none, character?, if_neg hcode]

theorem numberedWord?_eq (name : Bytes) : numberedWord? name = numbered? name := by
  have hdecimal := @word?_eq decimalDigit? 10 (fun _ _ h => (decimalDigit?_eq_some_iff.1 h).lt)
    (by decide)
  have hhex := @word?_eq hexDigit? 16 (fun _ _ h => (hexDigit?_eq_some_iff.1 h).lt) (by decide)
  cases name with
  | nil => rfl
  | cons b digits =>
    simp only [numberedWord?, numbered?, hdecimal, hhex, Option.bind_assoc, character?_fit,
      UInt32.reduceToNat]

/-! Every number has numerals, and zeros in front of one make no difference. -/

theorem Numeral.padded (h : Numeral base digits n) (hbase : 0 < base) (zeros : Nat) :
    Numeral base (List.replicate zeros 48 ++ digits) n := by
  obtain ⟨hne, ds, hds, hn⟩ := h
  have hzero : Digit base 48 0 := .figure hbase (by decide) rfl
  refine ⟨List.append_ne_nil_of_right_ne_nil _ hne, List.replicate zeros 0 ++ ds, ?_, ?_⟩
  · induction zeros with
    | zero => exact hds
    | succ zeros ih => exact .cons hzero ih
  · have hzeros : Nat.ofDigits base (List.replicate zeros 0) = 0 := by
      induction zeros with
      | zero => rfl
      | succ zeros ih => rw [List.replicate_succ, Nat.ofDigits_cons, ih, Nat.mul_zero]
    rw [List.reverse_append, List.reverse_replicate, Nat.ofDigits_append, hn, hzeros, Nat.mul_zero,
      Nat.add_zero]

theorem exists_digit {d : Nat} (h : d < base) (hbase : base ≤ 16) : ∃ b, Digit base b d := by
  by_cases hd : d < 10
  · refine ⟨UInt8.ofNat (48 + d), .figure h hd (Utf8.toNat_byte ?_)⟩
    omega
  · refine ⟨UInt8.ofNat (97 + (d - 10)), .small h (by omega) (Utf8.toNat_byte ?_)⟩
    omega

theorem exists_numeral (hbase : 2 ≤ base) (hbase' : base ≤ 16) (n : Nat) :
    ∃ digits, Numeral base digits n := by
  have hall (ds : List Nat) (h : ∀ d ∈ ds, d < base) : ∃ bs, Forall₂ (Digit base) bs ds := by
    induction ds with
    | nil => exact ⟨[], .nil⟩
    | cons d ds ih =>
      obtain ⟨b, hb⟩ := exists_digit (h d (List.mem_cons_self ..)) hbase'
      obtain ⟨bs, hbs⟩ := ih fun d hd => h d (List.mem_cons_of_mem _ hd)
      exact ⟨b :: bs, .cons hb hbs⟩
  have hdigits : ∀ d ∈ (base.digits n ++ [0]).reverse, d < base := by
    intro d hd
    obtain hd | hd := List.mem_append.1 (List.mem_reverse.1 hd)
    · exact Nat.digits_lt_base hbase hd
    · rw [List.mem_singleton.1 hd]
      omega
  obtain ⟨bs, hbs⟩ := hall _ hdigits
  refine ⟨bs, ?_, _, hbs, ?_⟩
  · rintro rfl
    simpa using hbs.length_eq
  · rw [List.reverse_reverse, Nat.ofDigits_append, Nat.ofDigits_digits]
    simp

/-! What a buffer held stays in front of what a reference puts behind it. -/

/-- A reference puts a character behind what a buffer holds, in bytes that are read as it. -/
def Puts (name : Bytes) (c : Char) : Prop :=
  ∀ buffer : Buffer, ∃ bytes, (expandInto buffer name).toList = buffer.toList ++ bytes ∧
    bytes = String.utf8EncodeChar c ∧ Utf8.decode? bytes = some (String.singleton c)

theorem named?_hash (digits : Bytes) : named? (.hash :: digits) = none := by
  have hnames : utf8 "lt" = [108, 116] ∧ utf8 "gt" = [103, 116] ∧ utf8 "amp" = [97, 109, 112] ∧
      utf8 "apos" = [97, 112, 111, 115] ∧ utf8 "quot" = [113, 117, 111, 116] := by decide
  obtain ⟨hlt, hgt, hamp, hapos, hquot⟩ := hnames
  simp [named?, Byte.hash, hlt, hgt, hamp, hapos, hquot]

theorem expandInto_hash {c : Char} (h : numbered? (.hash :: digits) = some c) :
    Puts (.hash :: digits) c := by
  intro buffer
  refine ⟨String.utf8EncodeChar c, ?_, rfl, Utf8.decode?_encodeChar c⟩
  simp only [expandInto, Buffer.toList_append, expand, named?_hash, h]

theorem Numbers.puts {name : Bytes} {c : Char} (h : Numbers name c.toNat) : Puts name c := by
  have hcode : IsCode c.toNat := isCode_iff.2 c.valid
  have hc := numbered?_eq_some_iff.2 ⟨_, h, hcode, rfl⟩
  cases h <;> exact expandInto_hash hc

/-- A name denotes a character exactly when it is a numeral of either kind for the code of one, and
a word of 32 bits is enough to find it; the buffer keeps what it held and has the character behind
that; and every character is so had from each of its numerals, with any zeros in front. -/
theorem numbers_decoded (name : Bytes) (buffer : Buffer) :
    (∀ c, numbered? name = some c ↔ ∃ n, Numbers name n ∧ IsCode n ∧ c.toNat = n) ∧
    (numbered? name = none ↔ ∀ n, Numbers name n → ¬ IsCode n) ∧
    numberedWord? name = numbered? name ∧
    buffer.toList <+: (expandInto buffer name).toList ∧
    (∀ c, numbered? name = some c → Puts name c) ∧
    ∀ c : Char, (∃ digits, Numeral 10 digits c.toNat) ∧ (∃ digits, Numeral 16 digits c.toNat) ∧
      ∀ digits zeros,
        (Numeral 10 digits c.toNat → Puts (.hash :: (List.replicate zeros 48 ++ digits)) c) ∧
        ∀ x, x = 120 ∨ x = 88 → Numeral 16 digits c.toNat →
          Puts (.hash :: x :: (List.replicate zeros 48 ++ digits)) c := by
  refine ⟨fun c => numbered?_eq_some_iff, numbered?_eq_none_iff, numberedWord?_eq name, ?kept, ?puts,
    ?spelled⟩
  case kept =>
    rw [expandInto, Buffer.toList_append]
    exact List.prefix_append ..
  case puts =>
    intro c hc
    obtain ⟨n, hn, -, rfl⟩ := numbered?_eq_some_iff.1 hc
    exact hn.puts
  case spelled =>
    intro c
    refine ⟨exists_numeral (by decide) (by decide) _, exists_numeral (by decide) (by decide) _, ?_⟩
    intro digits zeros
    refine ⟨fun h => ?_, fun x hx h => ?_⟩
    · exact (Numbers.decimal (h.padded (by decide) zeros)).puts
    · exact (Numbers.hexadecimal hx (h.padded (by decide) zeros)).puts

/-- A number that would be a letter's but for the word's overflow. -/
example : numbered? (utf8 "#4294967361") = none ∧ numbered? (utf8 "#0000000065") = some 'A' := by
  decide

end XmlStream.Reference
