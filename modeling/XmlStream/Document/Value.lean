import XmlStream.Buffer
import XmlStream.Read
import XmlStream.Event
import XmlStream.Reference
/-! Text and values. A run ends before its stop byte; a reference inside it reaches to the next `;`,
whatever stands between. A run without a reference is a slice of the document. -/
namespace XmlStream.Read

def isPlain (stop b : Byte) : Bool := b != stop && b != .ampersand

/-- The name of a reference, up to and past the next `;`; the cursor is after the `&`. -/
def reference : Read Bytes := fun c =>
  let name := c.rest.takeWhile (· != .semicolon)
  match c.rest.dropWhile (· != .semicolon) with
  | [] => .error .referenceUnclosed c
  | _ :: rest =>
    if name.isEmpty then .error .referenceEmpty c
    else .ok name ⟨c.pos + name.length + 1, rest⟩

theorem strict_reference : Strict reference := by
  have key {c : Cursor} {b : Byte} {rest : Bytes}
      (hr : c.rest.dropWhile (· != .semicolon) = b :: rest) :
      c.rest = (c.rest.takeWhile (· != .semicolon) ++ [b]) ++ rest := by
    simp [← hr]
  constructor
  · intro c
    unfold reference
    split
    · exact .refl c
    · rename_i b rest hr
      simp only
      split
      · exact .refl c
      · exact ⟨_, key hr, by simp [stop]; omega⟩
  · intro c name c' h
    unfold reference at h
    split at h
    · cases h
    · rename_i b rest hr
      simp only at h
      split at h <;> cases h
      have := congrArg List.length (key hr)
      simp at this ⊢; omega

def decoded (stop : Byte) (buffer : Buffer) (c : Cursor) : EStateM.Result Cause Cursor Bytes :=
  let plain := buffer.append (c.rest.takeWhile (isPlain stop))
  let here := c.skipWhile (isPlain stop)
  match _hr : here.rest with
  | [] => .ok plain.toList here
  | b :: rest =>
    if b = .ampersand then
      match _h : reference ⟨here.pos + 1, rest⟩ with
      | .error cause c' => .error cause c'
      | .ok name c' => decoded stop (Reference.expandInto plain name) c'
    else .ok plain.toList here
termination_by c.rest.length
decreasing_by
  have hc : c'.rest.length < rest.length := strict_reference.2 _ _ _ _h
  have hr : (c.skipWhile (isPlain stop)).rest.length = rest.length + 1 := congrArg List.length _hr
  have := (Cursor.reaches_skipWhile c (isPlain stop)).length_le
  omega

def run (stop : Byte) : Read Span := fun c =>
  let here := c.skipWhile (isPlain stop)
  if here.peek? = some .ampersand then
    match decoded stop .empty c with
    | .error cause c' => .error cause c'
    | .ok bytes c' => .ok (.transient bytes) c'
  else .ok (.stable ⟨c.pos, c.rest.takeWhile (isPlain stop)⟩) here

/-- Text up to the next tag. What decodes to nothing is the empty slice at its end. -/
def text : Read Span := do
  let value ← run .openAngle
  let stop ← position
  return if value = .transient [] then .stable ⟨stop, []⟩ else value

def openQuote : Read Unit := do
  let b ← peek?
  if b = some .quote then
    let _ ← next
    return ()
  else throw .valueUnquoted

def closeQuote : Read Unit := fun c =>
  match c.rest with
  | [] => .error .quoteUnclosed c
  | _ :: rest => .ok () ⟨c.pos + 1, rest⟩

def upTo (stop : Byte) : Read Bytes := fun c =>
  .ok (c.rest.takeWhile (· != stop)) (c.skipWhile (· != stop))

def value : Read Span := do
  openQuote
  let value ← run .quote
  closeQuote
  return value

def literal : Read Bytes := do
  openQuote
  let bytes ← upTo .quote
  closeQuote
  return bytes

def attr : Read (QName × Span) := do
  let name ← qname
  let b ← peek?
  if b = some .equals then
    let _ ← next
    let value ← value
    return (name, value)
  else throw (.attributeEquals name)

theorem forward_decoded (stop : Byte) (buffer : Buffer) : Forward (decoded stop buffer) := by
  intro c
  have hs := Cursor.reaches_skipWhile c (isPlain stop)
  fun_induction decoded stop buffer c with
  | case1 => exact hs
  | case2 _ _ here rest _ _ he hr =>
    have hm : here.Reaches ⟨here.pos + 1, rest⟩ := ⟨[.ampersand], hr, rfl⟩
    have := strict_reference.1 ⟨here.pos + 1, rest⟩
    rw [he] at this
    exact hs.trans (hm.trans this)
  | case3 _ _ _ here rest _ m he hr ih =>
    have hm : here.Reaches ⟨here.pos + 1, rest⟩ := ⟨[.ampersand], hr, rfl⟩
    have := strict_reference.forward.reaches he
    exact hs.trans (hm.trans (this.trans (ih (Cursor.reaches_skipWhile m _))))
  | case4 => exact hs

theorem forward_run (stop : Byte) : Forward (run stop) := by
  intro c
  unfold run
  simp only
  split
  · have := forward_decoded stop .empty c
    split <;> simp_all [Read.stop]
  · exact Cursor.reaches_skipWhile c _

theorem decoded_shrinks {stop : Byte} {buffer : Buffer} {c c' : Cursor} {bytes : Bytes}
    (h : decoded stop buffer c = .ok bytes c')
    (hc : (c.skipWhile (isPlain stop)).peek? = some .ampersand) :
    c'.rest.length < c.rest.length := by
  have hs := (Cursor.reaches_skipWhile c (isPlain stop)).length_le
  unfold decoded at h
  simp only at h
  split at h
  · simp_all [Cursor.peek?]
  · rename_i b rest hr
    have hl : (c.skipWhile (isPlain stop)).rest.length = rest.length + 1 := congrArg List.length hr
    split at h
    · split at h
      · cases h
      · rename_i m he
        have hm : m.rest.length < rest.length := strict_reference.2 _ _ _ he
        have := (forward_decoded stop _).length_le h
        omega
    · simp_all [Cursor.peek?]

/-- A run that does not begin at its stop byte is not empty. -/
theorem run_shrinks {stop b : Byte} {c c' : Cursor} {v : Span} (h : run stop c = .ok v c')
    (hc : c.peek? = some b) (hb : b ≠ stop) : c'.rest.length < c.rest.length := by
  unfold run at h
  simp only at h
  split at h
  · rename_i ha
    split at h <;> cases h
    exact decoded_shrinks (by assumption) ha
  · rename_i ha
    cases h
    obtain ⟨pos, rest⟩ := c
    cases rest with
    | nil => cases hc
    | cons x r =>
      obtain rfl : x = b := by simpa [Cursor.peek?] using hc
      have hp : isPlain stop x = true := by
        by_cases hx : x = .ampersand
        · subst hx
          simp [Cursor.skipWhile, isPlain, Cursor.peek?] at ha
        · simp [isPlain, hb, hx]
      have := (List.dropWhile_sublist (l := r) (isPlain stop)).length_le
      simp [Cursor.skipWhile, hp]; omega

theorem forward_text : Forward text :=
  .bind (forward_run _) fun _ => .bind forward_position fun _ => .pure _

theorem forward_openQuote : Forward openQuote :=
  .bind forward_peek? fun _ => .ite (.bind strict_next.forward fun _ => .pure _) (.throw _)

theorem forward_closeQuote : Forward closeQuote := by
  intro c
  unfold closeQuote
  split
  · exact .refl c
  · rename_i b rest hr
    exact ⟨[b], by simp [hr, stop], by simp [stop]⟩

theorem forward_value : Forward value :=
  .bind forward_openQuote fun _ => .bind (forward_run _) fun _ =>
    .bind forward_closeQuote fun _ => .pure _

theorem forward_upTo (stop : Byte) : Forward (upTo stop) := fun c => Cursor.reaches_skipWhile c _

theorem forward_literal : Forward literal :=
  .bind forward_openQuote fun _ => .bind (forward_upTo _) fun _ =>
    .bind forward_closeQuote fun _ => .pure _

theorem strict_attr : Strict attr :=
  .bind strict_qname fun _ => .bind forward_peek? fun _ =>
    .ite (.bind strict_next.forward fun _ => .bind forward_value fun _ => .pure _) (.throw _)

end XmlStream.Read
