import XmlStream.Cursor
/-! Reads: steps of a cursor that answer, or fail with a cause and stay where the fault was found.
A read only moves forward, and those that pass a construct pass at least one byte of it. -/
namespace XmlStream

abbrev Read := EStateM Cause Cursor

namespace Read

variable {α β : Type}

def stop : EStateM.Result Cause Cursor α → Cursor
  | .ok _ c => c
  | .error _ c => c

/-- The cursor passes bytes of its rest and nothing else, also when the read fails. -/
def Forward (r : Read α) : Prop := ∀ c : Cursor, c.Reaches (stop (r c))

/-- When it answers, at least one byte has been passed. -/
def Strict (r : Read α) : Prop :=
  Forward r ∧ ∀ c a c', r c = .ok a c' → c'.rest.length < c.rest.length

theorem Forward.reaches {r : Read α} (hr : Forward r) {c c' : Cursor} {a : α}
    (h : r c = .ok a c') : c.Reaches c' := by
  simpa [h, stop] using hr c

theorem Forward.length_le {r : Read α} (hr : Forward r) {c c' : Cursor} {a : α}
    (h : r c = .ok a c') : c'.rest.length ≤ c.rest.length :=
  (hr.reaches h).length_le

theorem Strict.forward {r : Read α} (h : Strict r) : Forward r := h.1

theorem bind_eq_ok {r : Read α} {f : α → Read β} {c c' : Cursor} {b : β}
    (h : (r >>= f) c = .ok b c') : ∃ a m, r c = .ok a m ∧ f a m = .ok b c' := by
  simp only [bind, EStateM.bind] at h
  split at h
  · exact ⟨_, _, by assumption, h⟩
  · cases h

theorem Forward.pure (a : α) : Forward (pure a : Read α) := fun c => .refl c

theorem Forward.throw (e : Cause) : Forward (throw e : Read α) := fun c => .refl c

theorem Forward.bind {r : Read α} {f : α → Read β} (hr : Forward r) (hf : ∀ a, Forward (f a)) :
    Forward (r >>= f) := by
  intro c
  have h := hr c
  simp only [Bind.bind, EStateM.bind]
  split
  · rename_i a m hm
    rw [hm] at h
    exact h.trans (hf a m)
  · rename_i e m hm
    rw [hm] at h
    exact h

theorem Forward.ite {p : Prop} [Decidable p] {r s : Read α} (hr : Forward r) (hs : Forward s) :
    Forward (if p then r else s) := by
  split <;> assumption

theorem Strict.throw (e : Cause) : Strict (throw e : Read α) :=
  ⟨.throw e, fun _ _ _ h => by cases h⟩

theorem Strict.bind {r : Read α} {f : α → Read β} (hr : Strict r) (hf : ∀ a, Forward (f a)) :
    Strict (r >>= f) := by
  refine ⟨.bind hr.1 hf, fun c b c' h => ?_⟩
  obtain ⟨a, m, h₁, h₂⟩ := bind_eq_ok h
  exact Nat.lt_of_le_of_lt ((hf a).length_le h₂) (hr.2 _ _ _ h₁)

theorem Strict.after {r : Read α} {f : α → Read β} (hr : Forward r) (hf : ∀ a, Strict (f a)) :
    Strict (r >>= f) := by
  refine ⟨.bind hr fun a => (hf a).1, fun c b c' h => ?_⟩
  obtain ⟨a, m, h₁, h₂⟩ := bind_eq_ok h
  exact Nat.lt_of_lt_of_le ((hf a).2 _ _ _ h₂) (hr.length_le h₁)

theorem Strict.ite {p : Prop} [Decidable p] {r s : Read α} (hr : Strict r) (hs : Strict s) :
    Strict (if p then r else s) := by
  split <;> assumption

def position : Read Nat := fun c => .ok c.pos c
def peek? : Read (Option Byte) := fun c => .ok c.peek? c

def current : Read Byte := fun c =>
  match c.rest with
  | [] => .error .prematureEnd c
  | b :: _ => .ok b c

def pass : Read Unit := fun c =>
  match c.rest with
  | [] => .error .prematureEnd c
  | _ :: rest => .ok () ⟨c.pos + 1, rest⟩

def next : Read Byte := do
  pass
  current

def skipBlank : Read Unit := fun c => .ok () c.skipBlank

def require (n : Nat) (cause : Cause) : Read Unit := fun c =>
  if c.has n then .ok () c else .error cause c

def expectNext (text : String) : Read Unit := fun c =>
  if !c.has ((utf8 text).length + 1) then .error .textTooShort c
  else if !(c.advance 1).startsWith (utf8 text) then .error (.textExpected text) (c.advance 1)
  else .ok () (c.advance ((utf8 text).length + 1))

def name : Read Bytes := fun c =>
  match c.rest with
  | [] => .error .prematureEnd c
  | b :: _ =>
    let after := c.skipWhile Byte.isNameByte
    if !b.isLetter then .error (.nameStart b) c
    else if after.rest.isEmpty then .error .prematureEnd after
    else .ok (c.rest.takeWhile Byte.isNameByte) after

def qname : Read QName := do
  let first ← name
  let b ← peek?
  if b = some .colon then
    let _ ← next
    let second ← name
    return ⟨first, second⟩
  else return ⟨[], first⟩

def leave (depth : Nat) : Read Nat :=
  match depth with
  | 0 => throw .unexpectedClose
  | depth + 1 => return depth

theorem forward_position : Forward position := fun c => .refl c

theorem forward_peek? : Forward peek? := fun c => .refl c

theorem forward_current : Forward current := by
  intro c
  unfold current
  split <;> exact .refl c

theorem strict_pass : Strict pass := by
  constructor
  · intro c
    unfold pass
    split
    · exact .refl c
    · rename_i b rest hr
      exact ⟨[b], by simp [hr, stop], by simp [stop]⟩
  · intro c a c' h
    unfold pass at h
    split at h <;> cases h
    simp_all

theorem strict_next : Strict next := .bind strict_pass fun _ => forward_current

theorem forward_skipBlank : Forward skipBlank := fun c => Cursor.reaches_skipWhile c _

theorem forward_require (n : Nat) (cause : Cause) : Forward (require n cause) := by
  intro c
  unfold require
  split <;> exact .refl c

theorem forward_expectNext (text : String) : Forward (expectNext text) := by
  intro c
  unfold expectNext
  split
  · exact .refl c
  · rename_i hc
    have hc : (utf8 text).length + 1 ≤ c.rest.length := (c.has_iff _).1 (by simpa using hc)
    split
    · exact Cursor.reaches_advance (by omega)
    · exact Cursor.reaches_advance hc

theorem strict_name : Strict name := by
  constructor
  · intro c
    unfold name
    split
    · exact .refl c
    · simp only
      split
      · exact .refl c
      · split <;> exact Cursor.reaches_skipWhile c _
  · intro c a c' h
    unfold name at h
    split at h
    · cases h
    · rename_i b rest hr
      simp only at h
      split at h
      · cases h
      · rename_i hb
        split at h <;> cases h
        have hn : b.isNameByte = true := by simp_all [Byte.isNameByte]
        have : (rest.dropWhile Byte.isNameByte).length ≤ rest.length :=
          (List.dropWhile_sublist _).length_le
        simp [Cursor.skipWhile, hr, hn]; omega

theorem strict_qname : Strict qname := by
  refine .bind strict_name fun _ => .bind forward_peek? fun _ => .ite ?_ (.pure _)
  exact .bind strict_next.forward fun _ => .bind strict_name.forward fun _ => .pure _

theorem forward_leave (depth : Nat) : Forward (leave depth) := by
  cases depth with
  | zero => exact .throw _
  | succ n => exact .pure n

end Read
end XmlStream
