import XmlStream.Proofs.Grammar
/-! What a read reads: exactly which bytes it passes, what it answers for them, and what has to
follow. Such a description holds in both directions, and those of two reads in a row compose. -/
namespace XmlStream.Read
open Grammar
variable {α β : Type}

/-- From an offset, the bytes passed, the answer, and the bytes that follow. -/
abbrev Shape (α : Type) := Nat → Bytes → α → Bytes → Prop

/-- The read answers exactly for the words of the shape, and moves behind them. -/
def Reads (r : Read α) (P : Shape α) : Prop := ∀ c a c',
  r c = .ok a c' ↔ ∃ w rest, c.rest = w ++ rest ∧ c' = ⟨c.pos + w.length, rest⟩ ∧ P c.pos w a rest

def Shape.bind (P : Shape α) (Q : α → Shape β) : Shape β := fun pos w b rest =>
  ∃ u a v, w = u ++ v ∧ P pos u a (v ++ rest) ∧ Q a (pos + u.length) v b rest

theorem Reads.congr {r : Read α} {P Q : Shape α} (h : Reads r P)
    (e : ∀ pos w a rest, P pos w a rest ↔ Q pos w a rest) : Reads r Q := by
  intro c a c'
  simp only [h c a c', e]

theorem reads_pure (a : α) : Reads (pure a) fun _ w b _ => w = [] ∧ b = a := by
  intro c b c'
  constructor
  · rintro ⟨⟩
    exact ⟨[], c.rest, rfl, rfl, rfl, rfl⟩
  · rintro ⟨w, rest, hr, rfl, rfl, rfl⟩
    obtain ⟨pos, text⟩ := c
    obtain rfl : text = rest := hr
    rfl

theorem reads_throw (e : Cause) : Reads (throw e : Read α) fun _ _ _ _ => False := by
  intro c a c'
  constructor
  · intro h
    cases h
  · rintro ⟨_, _, _, _, h⟩
    exact h.elim

theorem bind_ok {r : Read α} {f : α → Read β} {c m : Cursor} {a : α} (h : r c = .ok a m) :
    (r >>= f) c = f a m := by
  simp only [Bind.bind, EStateM.bind, h]

theorem bind_error {r : Read α} {f : α → Read β} {c m : Cursor} {cause : Cause}
    (h : r c = .error cause m) : (r >>= f) c = .error cause m := by
  simp only [Bind.bind, EStateM.bind, h]

theorem Reads.bind {r : Read α} {f : α → Read β} {P : Shape α} {Q : α → Shape β} (hr : Reads r P)
    (hf : ∀ a, Reads (f a) (Q a)) : Reads (r >>= f) (P.bind Q) := by
  intro c b c'
  constructor
  · intro h
    obtain ⟨a, m, h₁, h₂⟩ := bind_eq_ok h
    obtain ⟨u, k, hu, rfl, hP⟩ := (hr _ _ _).1 h₁
    obtain ⟨v, rest, hv, rfl, hQ⟩ := (hf a _ _ _).1 h₂
    obtain rfl : k = v ++ rest := hv
    refine ⟨u ++ v, rest, by rw [hu, List.append_assoc], ?_, u, a, v, rfl, hP, hQ⟩
    rw [List.length_append, Nat.add_assoc]
  · rintro ⟨w, rest, hc, rfl, u, a, v, rfl, hP, hQ⟩
    rw [List.append_assoc] at hc
    rw [bind_ok ((hr _ _ _).2 ⟨u, v ++ rest, hc, rfl, hP⟩)]
    refine (hf a _ _ _).2 ⟨v, rest, rfl, ?_, hQ⟩
    rw [List.length_append, Nat.add_assoc]

theorem Reads.ite {p : Prop} [Decidable p] {r s : Read α} {P Q : Shape α} (hr : Reads r P)
    (hs : Reads s Q) : Reads (if p then r else s) fun pos w a rest =>
      (p ∧ P pos w a rest) ∨ (¬ p ∧ Q pos w a rest) := by
  by_cases h : p
  · simpa [h] using hr
  · simpa [h] using hs

/-! What passes no byte: the bytes ahead are those of what is read next and those after it. -/

/-- A read that only looks ahead. -/
theorem reads_look {r : Read α} {P : Nat → α → Bytes → Prop}
    (h : ∀ c a c', r c = .ok a c' ↔ c' = c ∧ P c.pos a c.rest) :
    Reads r fun pos w a rest => w = [] ∧ P pos a rest := by
  intro c a c'
  rw [h]
  obtain ⟨pos, text⟩ := c
  constructor
  · rintro ⟨rfl, hP⟩
    exact ⟨[], text, rfl, rfl, rfl, hP⟩
  · rintro ⟨w, rest, hr, rfl, rfl, hP⟩
    obtain rfl : text = rest := hr
    exact ⟨rfl, hP⟩

theorem Reads.look {r : Read α} {f : α → Read β} {P : Nat → α → Bytes → Prop} {Q : α → Shape β}
    (h : ∀ c a c', r c = .ok a c' ↔ c' = c ∧ P c.pos a c.rest) (hf : ∀ a, Reads (f a) (Q a)) :
    Reads (r >>= f) fun pos w b rest => ∃ a, P pos a (w ++ rest) ∧ Q a pos w b rest :=
  ((reads_look h).bind hf).congr fun pos w b rest => by
    constructor
    · rintro ⟨_, a, v, rfl, ⟨rfl, hP⟩, hQ⟩
      exact ⟨a, hP, hQ⟩
    · rintro ⟨a, hP, hQ⟩
      exact ⟨[], a, w, rfl, ⟨rfl, hP⟩, hQ⟩

theorem Reads.position {f : Nat → Read β} {Q : Nat → Shape β} (hf : ∀ a, Reads (f a) (Q a)) :
    Reads (position >>= f) fun pos => Q pos pos :=
  (Reads.look (P := fun pos a _ => a = pos) (fun c a c' => by
    simp [Read.position, eq_comm, and_comm]) hf).congr fun pos w b rest => by simp

theorem Reads.emit {event : Event} {f : Emission → Read β} {Q : Emission → Shape β}
    (hf : ∀ a, Reads (f a) (Q a)) : Reads (emit event >>= f) fun pos => Q ⟨event, pos⟩ pos :=
  (Reads.look (P := fun pos a _ => a = ⟨event, pos⟩) (fun c a c' => by
    simp [Read.emit, eq_comm, and_comm]) hf).congr fun pos w b rest => by simp

theorem Reads.peek {f : Option Byte → Read β} {Q : Option Byte → Shape β}
    (hf : ∀ a, Reads (f a) (Q a)) :
    Reads (peek? >>= f) fun pos w b rest => Q (w ++ rest).head? pos w b rest :=
  (Reads.look (P := fun _ a text => a = text.head?) (fun c a c' => by
    simp [peek?, Cursor.peek?, eq_comm, and_comm]) hf).congr fun pos w b rest => by simp

theorem Reads.current {f : Byte → Read β} {Q : Byte → Shape β} (hf : ∀ a, Reads (f a) (Q a)) :
    Reads (current >>= f) fun pos w b rest =>
      ∃ x, (w ++ rest).head? = some x ∧ Q x pos w b rest :=
  Reads.look (P := fun _ a text => text.head? = some a) (fun c a c' => by
    unfold Read.current
    split <;> rename_i hr <;> simp [hr, eq_comm, and_comm]) hf

theorem require_ok_iff (n : Nat) (cause : Cause) (c : Cursor) (a : Unit) (c' : Cursor) :
    require n cause c = .ok a c' ↔ c' = c ∧ n ≤ c.rest.length := by
  unfold require
  split <;> rename_i h <;> rw [Cursor.has_iff] at h <;> simp [h, eq_comm]

theorem reads_require (n : Nat) (cause : Cause) :
    Reads (require n cause) fun _ w _ rest => w = [] ∧ n ≤ rest.length :=
  reads_look (P := fun _ _ rest => n ≤ rest.length) (require_ok_iff n cause)

theorem Reads.require {n : Nat} {cause : Cause} {r : Read β} {Q : Shape β} (hr : Reads r Q) :
    Reads (require n cause >>= fun _ => r) fun pos w b rest =>
      n ≤ (w ++ rest).length ∧ Q pos w b rest :=
  (Reads.look (P := fun _ _ text => n ≤ text.length) (require_ok_iff n cause)
    fun _ => hr).congr fun pos w b rest => by simp

/-! Single bytes. -/

theorem forall_head {P : Byte → Prop} {b : Byte} {r : Bytes} (h : P b) :
    ∀ x, (b :: r).head? = some x → P x := by
  intro x hx
  cases hx
  exact h

theorem reads_byte {r : Read Unit} (h : ∀ pos b rest, r ⟨pos, b :: rest⟩ = .ok () ⟨pos + 1, rest⟩)
    (he : ∀ pos a c, r ⟨pos, []⟩ ≠ .ok a c) : Reads r fun _ w _ _ => ∃ x, w = [x] := by
  intro c a c'
  obtain ⟨pos, text⟩ := c
  cases text with
  | nil => simp [he]
  | cons b rest =>
    rw [h]
    constructor
    · rintro ⟨⟩
      exact ⟨[b], rest, rfl, rfl, b, rfl⟩
    · rintro ⟨_, rest', hr, rfl, x, rfl⟩
      obtain ⟨rfl, rfl⟩ : b = x ∧ rest = rest' := by simpa using hr
      rfl

theorem reads_pass : Reads pass fun _ w _ _ => ∃ x, w = [x] :=
  reads_byte (fun _ _ _ => rfl) fun _ _ _ h => by cases h

theorem Reads.pass {r : Read β} {Q : Shape β} (hr : Reads r Q) :
    Reads (pass >>= fun _ => r) fun pos w b rest => ∃ x v, w = x :: v ∧ Q (pos + 1) v b rest :=
  (reads_pass.bind fun _ => hr).congr fun pos w b rest => by
    constructor
    · rintro ⟨_, _, v, rfl, ⟨x, rfl⟩, hQ⟩
      exact ⟨x, v, rfl, hQ⟩
    · rintro ⟨x, v, rfl, hQ⟩
      exact ⟨[x], (), v, rfl, ⟨x, rfl⟩, hQ⟩

theorem Reads.next {f : Byte → Read β} {Q : Byte → Shape β} (hf : ∀ a, Reads (f a) (Q a)) :
    Reads (next >>= f) fun pos w b rest =>
      ∃ x v y, w = x :: v ∧ (v ++ rest).head? = some y ∧ Q y (pos + 1) v b rest := by
  have h : Read.next >>= f = Read.pass >>= fun _ => Read.current >>= f := bind_assoc _ _ _
  rw [h]
  exact (Reads.pass (.current hf)).congr fun pos w b rest => by simp

/-! Words of a class of bytes, read as far as they go. -/

theorem span_iff {p : Byte → Bool} {s w rest : Bytes} :
    s.takeWhile p = w ∧ s.dropWhile p = rest ↔
      s = w ++ rest ∧ (∀ b ∈ w, p b = true) ∧ ∀ b, rest.head? = some b → p b = false := by
  constructor
  · rintro ⟨rfl, rfl⟩
    refine ⟨List.takeWhile_append_dropWhile.symm, fun b hb => ?_, fun b hb => ?_⟩
    · exact List.all_eq_true.1 List.all_takeWhile b hb
    · have := List.head?_dropWhile_not p s
      simpa [hb] using this
  · rintro ⟨rfl, hw, hr⟩
    rw [List.takeWhile_append_of_pos hw, List.dropWhile_append_of_pos hw]
    cases rest with
    | nil => simp
    | cons b rest => simp [hr b rfl]

/-- A read of a word of a class of bytes, which may answer with the word. -/
theorem Reads.span {r : Read α} {p : Byte → Bool} {P : Nat → Bytes → α → Bytes → Prop}
    (h : ∀ c a c', r c = .ok a c' ↔
      c' = c.skipWhile p ∧ P c.pos (c.rest.takeWhile p) a (c.rest.dropWhile p)) :
    Reads r fun pos w a rest =>
      (∀ b ∈ w, p b = true) ∧ (∀ b, rest.head? = some b → p b = false) ∧ P pos w a rest := by
  intro c a c'
  rw [h]
  constructor
  · rintro ⟨rfl, hP⟩
    obtain ⟨hs, hw, hr⟩ := span_iff.1 ⟨rfl, rfl⟩
    exact ⟨_, _, hs, rfl, hw, hr, hP⟩
  · rintro ⟨w, rest, hs, rfl, hw, hr, hP⟩
    obtain ⟨rfl, rfl⟩ := span_iff.2 ⟨hs, hw, hr⟩
    exact ⟨rfl, hP⟩

theorem reads_skipBlank : Reads skipBlank fun _ w _ rest =>
    Blanks w ∧ ∀ b, rest.head? = some b → b.isBlank = false :=
  (Reads.span (p := Byte.isBlank) (P := fun _ _ _ _ => True) fun c a c' => by
    simp [skipBlank, Cursor.skipBlank, eq_comm]).congr fun pos w a rest => by simp [Blanks]

theorem all_ne_iff {stop : Byte} {w : Bytes} : (∀ b ∈ w, (b != stop) = true) ↔ stop ∉ w :=
  ⟨fun h hs => by simpa using h stop hs, fun h _ hb => bne_iff_ne.2 fun e => h (e ▸ hb)⟩

theorem stopped_iff {stop : Byte} {rest : Bytes} :
    (∀ b, rest.head? = some b → (b != stop) = false) ↔ rest = [] ∨ rest.head? = some stop := by
  cases rest <;> simp

theorem reads_upTo (stop : Byte) : Reads (upTo stop) fun _ w a rest =>
    stop ∉ w ∧ (rest = [] ∨ rest.head? = some stop) ∧ a = w :=
  (Reads.span (p := (· != stop)) (P := fun _ w a _ => a = w) fun c a c' => by
    simp [upTo, eq_comm, and_comm]).congr fun pos w a rest => by rw [all_ne_iff, stopped_iff]

theorem isNameByte_of_isBlank {b : Byte} (h : b.isBlank = true) : b.isNameByte = false := by
  simp only [Byte.isBlank, Bool.or_eq_true, beq_iff_eq] at h
  obtain ((rfl | rfl) | rfl) | rfl := h <;> decide

theorem not_blank_of_letter {b : Byte} (hb : b.isLetter = true) : b.isBlank = false :=
  Bool.eq_false_iff.2 fun h => by simpa [Byte.isNameByte, hb] using isNameByte_of_isBlank h

/-- No blank begins a name, so blanks before one end where it begins. -/
theorem not_blank_of_name {n rest : Bytes} (hn : Name n) :
    ∀ b, (n ++ rest).head? = some b → b.isBlank = false := by
  obtain ⟨b, r, rfl, hb, -⟩ := hn
  exact forall_head (not_blank_of_letter hb)

theorem name_takeWhile {n rest : Bytes} (hn : Name n) (hr : Apart rest) :
    (n ++ rest).takeWhile Byte.isNameByte = n ∧ (n ++ rest).dropWhile Byte.isNameByte = rest := by
  obtain ⟨b, r, rfl, hb, hc⟩ := hn
  refine span_iff.2 ⟨rfl, fun c h => ?_, hr⟩
  obtain rfl | h := List.mem_cons.1 h
  · simp [Byte.isNameByte, hb]
  · exact hc c h

theorem reads_name :
    Reads name fun _ w a rest => a = w ∧ Name w ∧ rest ≠ [] ∧ Apart rest := by
  intro c a c'
  obtain ⟨pos, text⟩ := c
  constructor
  · intro h
    unfold name at h
    split at h
    · cases h
    · rename_i b r hr
      obtain rfl : text = b :: r := hr
      simp only at h
      split at h
      · cases h
      · rename_i hb
        split at h <;> cases h
        rename_i he
        obtain ⟨hs, hw, hn⟩ := span_iff.1 ⟨rfl, rfl⟩
        refine ⟨_, _, hs, rfl, rfl, ?_, by simpa [Cursor.skipWhile] using he, hn⟩
        have hb' : b.isNameByte = true := by simp_all [Byte.isNameByte]
        rw [List.takeWhile_cons, if_pos hb'] at hw ⊢
        exact ⟨b, _, rfl, by simpa using hb, fun c hc => hw c (List.mem_cons_of_mem b hc)⟩
  · rintro ⟨w, rest, hr, rfl, rfl, hn, he, ha⟩
    obtain rfl : text = a ++ rest := hr
    obtain ⟨ht, hd⟩ := name_takeWhile hn ha
    obtain ⟨b, r, rfl, hb, -⟩ := hn
    rw [List.cons_append] at ht hd ⊢
    simp [name, hb, Cursor.skipWhile, ht, hd, he]

theorem Reads.name {f : Bytes → Read β} {Q : Bytes → Shape β} (hf : ∀ a, Reads (f a) (Q a)) :
    Reads (name >>= f) fun pos w b rest => ∃ n v, w = n ++ v ∧ Name n ∧ v ++ rest ≠ [] ∧
      Apart (v ++ rest) ∧ Q n (pos + n.length) v b rest :=
  (reads_name.bind hf).congr fun pos w b rest => by
    constructor
    · rintro ⟨n, _, v, rfl, ⟨rfl, hn, he, ha⟩, hQ⟩
      exact ⟨_, v, rfl, hn, he, ha, hQ⟩
    · rintro ⟨n, v, rfl, hn, he, ha, hQ⟩
      exact ⟨n, n, v, rfl, ⟨rfl, hn, he, ha⟩, hQ⟩

theorem reads_qname : Reads qname fun _ w a rest =>
    w = a.text ∧ IsQName a ∧ rest ≠ [] ∧ Apart rest ∧
      (a.qualifier = [] → rest.head? ≠ some .colon) :=
  (Reads.name fun _ => .peek fun _ => (Reads.next fun _ => .name fun _ => reads_pure _).ite
    (reads_pure _)).congr fun pos w a rest => by
      constructor
      · rintro ⟨n, v, rfl, hn, he, ha, hqualified | ⟨hc, rfl, rfl⟩⟩
        · obtain ⟨hc, x, v', y, rfl, -, m, v'', rfl, hm, he', ha', rfl, rfl⟩ := hqualified
          obtain rfl : x = .colon := by simpa using hc
          have hq : n ≠ [] := by
            obtain ⟨b, r, rfl, -⟩ := hn
            simp
          simp_all [QName.text, IsQName]
        · simp_all [QName.text, IsQName]
      · rintro ⟨rfl, ⟨hq, hm⟩, he, ha, hc⟩
        obtain ⟨q, n⟩ := a
        by_cases h : q = []
        · subst h
          exact ⟨n, [], by simp [QName.text], hm, he, ha, .inr ⟨hc rfl, rfl, rfl⟩⟩
        · have hq : Name q := hq.resolve_left h
          have hcolon : Apart (.colon :: n ++ rest) := forall_head (by decide)
          obtain ⟨b, hb⟩ : ∃ b, (n ++ rest).head? = some b := by
            obtain ⟨b, r, rfl, -⟩ := hm
            exact ⟨b, rfl⟩
          refine ⟨q, .colon :: n, by simp [QName.text, h], hq, by simp, hcolon,
            .inl ⟨rfl, .colon, n, b, rfl, hb, ?_⟩⟩
          exact ⟨n, [], (List.append_nil n).symm, hm, he, ha, rfl, rfl⟩

end XmlStream.Read
