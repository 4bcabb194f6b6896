import XmlStream.Document.Special
/-! One step of reading a document: from a place in its structure over one construct to the next
place, with the events that construct brings. Every step that leads on passes at least one byte. -/
namespace XmlStream

structure Config where
  strict : Bool := false
deriving DecidableEq, Repr

namespace Config

def lenient : Config := {}
def strictDeclaration : Config := { strict := true }
def withStrict (config : Config) (strict : Bool) : Config := { config with strict }

end Config

inductive Phase where
  | content
  | tag (start : Nat) (name : QName)
  | declaration (name : Bytes)
deriving DecidableEq, Repr

structure Place where
  depth : Nat
  phase : Phase
deriving DecidableEq, Repr

structure Emission where
  event : Event
  position : Nat
deriving DecidableEq, Repr

/-- The events of a construct and the place after it; none after the end of the root element. -/
structure Progress where
  emissions : List Emission
  place : Option Place
deriving DecidableEq, Repr

namespace Read

def emit (event : Event) : Read Emission := fun c => .ok ⟨event, c.pos⟩ c

def goOn (emissions : List Emission) (depth : Nat) (phase : Phase) : Read Progress :=
  return ⟨emissions, some ⟨depth, phase⟩⟩

/-- A document type, comment or character section; the cursor is on its `!`. What a character
section holds counts only inside an element. -/
def special (depth : Nat) : Read Progress := do
  require 2 .specialTooShort
  let b ← next
  if b = .dash then
    let b ← next
    if b = .dash then
      pass
      require 3 .commentTooShort
      comment
      goOn [] depth .content
    else throw .commentExpected
  else if b = .openBracket then
    expectNext "CDATA["
    let body ← cdata
    if depth = 0 then goOn [] depth .content
    else
      let e ← emit (.characters (.stable body))
      goOn [e] depth .content
  else if b = .upperD then
    expectNext "OCTYPE"
    skipBlank
    let d ← doctype
    let e ← emit (.doctype d)
    goOn [e] depth .content
  else throw .specialUnknown

def expectName (expected : Option Bytes) (found : Bytes) : Read Unit :=
  match expected with
  | none => return ()
  | some wanted => if found = wanted then return () else throw (.declarationName wanted found)

def openDeclaration (depth : Nat) (expected : Option Bytes) : Read Progress := do
  let _ ← next
  let found ← name
  expectName expected found
  let e ← emit (.startDeclaration found)
  goOn [e] depth (.declaration found)

def openTag (depth start : Nat) : Read Progress := do
  let name ← qname
  goOn [] depth (.tag start name)

def closeTag (depth start : Nat) : Read Progress := do
  let depth ← leave depth
  let _ ← next
  let name ← qname
  skipBlank
  let b ← current
  if b = .closeAngle then
    pass
    let stop ← position
    let e ← emit (.endElement name ⟨start, stop⟩)
    return ⟨[e], if depth = 0 then none else some ⟨depth, .content⟩⟩
  else throw .closeExpected

def markup (depth : Nat) : Read Progress := do
  let start ← position
  let b ← next
  -- the byte that tells what markup it is stays under the cursor
  if b = .slash then closeTag depth start
  else if b = .exclamation then special depth
  else if b = .question then openDeclaration depth none
  else if b.isLetter then openTag depth start
  else throw .letterExpected

def textStep (depth : Nat) : Read Progress := do
  let t ← text
  let e ← emit (.characters t)
  goOn [e] depth .content

def skipOutside : Read Progress := do
  let _ ← upTo .openAngle
  goOn [] 0 .content

def content (depth : Nat) : Read Progress := fun c =>
  match c.rest with
  | [] => if depth = 0 then .ok ⟨[], none⟩ c else .error (.elementsOpen depth) c
  | b :: _ =>
    if b = .openAngle then markup depth c
    else if depth = 0 then skipOutside c
    else textStep depth c

def tag (depth start : Nat) (name : QName) : Read Progress := do
  skipBlank
  let b ← current
  if b = .slash then
    let b ← next
    if b = .closeAngle then
      pass
      let stop ← position
      let e ← emit (.startElement name ⟨start, stop⟩)
      let e' ← emit (.endElement name ⟨start, stop⟩)
      return ⟨[e, e'], if depth = 0 then none else some ⟨depth, .content⟩⟩
    else throw .selfCloseExpected
  else if b = .closeAngle then
    pass
    let stop ← position
    let e ← emit (.startElement name ⟨start, stop⟩)
    goOn [e] (depth + 1) .content
  else
    let a ← attr
    let e ← emit (.attr a.1 a.2)
    goOn [e] depth (.tag start name)

def declaration (depth : Nat) (name : Bytes) : Read Progress := do
  skipBlank
  let b ← current
  if b = .question then
    let b ← next
    if b = .closeAngle then
      let e ← emit (.endDeclaration name)
      pass
      goOn [e] depth .content
    else throw .declarationUnclosed
  else
    let a ← attr
    let e ← emit (.attr a.1 a.2)
    goOn [e] depth (.declaration name)

def step : Place → Read Progress
  | ⟨depth, .content⟩ => content depth
  | ⟨depth, .tag start name⟩ => tag depth start name
  | ⟨depth, .declaration name⟩ => declaration depth name

theorem forward_emit (event : Event) : Forward (emit event) := fun c => .refl c

theorem forward_special (depth : Nat) : Forward (special depth) := by
  refine .bind (forward_require _ _) fun _ => .bind strict_next.forward fun _ =>
    .ite ?_ (.ite ?_ (.ite ?_ (.throw _)))
  · exact .bind strict_next.forward fun _ => .ite (.bind strict_pass.forward fun _ =>
      .bind (forward_require _ _) fun _ => .bind forward_comment fun _ => .pure _) (.throw _)
  · exact .bind (forward_expectNext _) fun _ => .bind forward_cdata fun _ =>
      .ite (.pure _) (.bind (forward_emit _) fun _ => .pure _)
  · exact .bind (forward_expectNext _) fun _ => .bind forward_skipBlank fun _ =>
      .bind forward_doctype fun _ => .bind (forward_emit _) fun _ => .pure _

theorem forward_expectName (expected : Option Bytes) (found : Bytes) :
    Forward (expectName expected found) := by
  cases expected with
  | none => exact .pure _
  | some wanted => exact .ite (.pure _) (.throw _)

theorem strict_openDeclaration (depth : Nat) (expected : Option Bytes) :
    Strict (openDeclaration depth expected) :=
  .bind strict_next fun _ => .bind strict_name.forward fun _ =>
    .bind (forward_expectName _ _) fun _ => .bind (forward_emit _) fun _ => .pure _

theorem forward_closeTag (depth start : Nat) : Forward (closeTag depth start) :=
  .bind (forward_leave _) fun _ => .bind strict_next.forward fun _ =>
    .bind strict_qname.forward fun _ => .bind forward_skipBlank fun _ =>
      .bind forward_current fun _ =>
      .ite (.bind strict_pass.forward fun _ => .bind forward_position fun _ =>
        .bind (forward_emit _) fun _ => .pure _) (.throw _)

theorem strict_markup (depth : Nat) : Strict (markup depth) :=
  .after forward_position fun _ => .bind strict_next fun _ =>
    .ite (forward_closeTag _ _) <| .ite (forward_special _) <|
      .ite (strict_openDeclaration _ _).forward <|
        .ite (.bind strict_qname.forward fun _ => .pure _) (.throw _)

theorem forward_textStep (depth : Nat) : Forward (textStep depth) :=
  .bind forward_text fun _ => .bind (forward_emit _) fun _ => .pure _

theorem textStep_shrinks {depth : Nat} {c c' : Cursor} {p : Progress} {b : Byte}
    (h : textStep depth c = .ok p c') (hc : c.peek? = some b) (hb : b ≠ .openAngle) :
    c'.rest.length < c.rest.length := by
  obtain ⟨t, m, ht, h⟩ := bind_eq_ok h
  obtain ⟨v, k, hv, ht⟩ := bind_eq_ok ht
  have := run_shrinks hv hc hb
  have := (Forward.bind forward_position fun _ => .pure _).length_le ht
  have := (Forward.bind (forward_emit _) fun _ => .pure _).length_le h
  omega

theorem forward_skipOutside : Forward skipOutside :=
  .bind (forward_upTo _) fun _ => .pure _

theorem skipOutside_shrinks {c c' : Cursor} {p : Progress} {b : Byte}
    (h : skipOutside c = .ok p c') (hc : c.peek? = some b) (hb : b ≠ .openAngle) :
    c'.rest.length < c.rest.length := by
  obtain ⟨_, m, hm, h⟩ := bind_eq_ok h
  cases h
  cases hm
  obtain ⟨pos, rest⟩ := c
  cases rest with
  | nil => cases hc
  | cons x r =>
    obtain rfl : x = b := by simpa [Cursor.peek?] using hc
    have := (List.dropWhile_sublist (l := r) (· != Byte.openAngle)).length_le
    simp [Cursor.skipWhile, hb]; omega

theorem forward_content (depth : Nat) : Forward (content depth) := by
  intro c
  unfold content
  split
  · split <;> exact .refl c
  · split
    · exact (strict_markup depth).forward c
    · split
      · exact forward_skipOutside c
      · exact forward_textStep depth c

theorem content_shrinks {depth : Nat} {c c' : Cursor} {p : Progress}
    (h : content depth c = .ok p c') : p.place = none ∨ c'.rest.length < c.rest.length := by
  unfold content at h
  split at h
  · split at h <;> cases h
    exact .inl rfl
  · rename_i b rest hr
    have hc : c.peek? = some b := by simp [Cursor.peek?, hr]
    split at h
    · exact .inr ((strict_markup depth).2 _ _ _ h)
    · rename_i hb
      split at h
      · exact .inr (skipOutside_shrinks h hc hb)
      · exact .inr (textStep_shrinks h hc hb)

theorem strict_tag (depth start : Nat) (name : QName) : Strict (tag depth start name) := by
  refine .after forward_skipBlank fun _ => .after forward_current fun _ => .ite ?_ (.ite ?_ ?_)
  · exact .bind strict_next fun _ => .ite (.bind strict_pass.forward fun _ =>
      .bind forward_position fun _ => .bind (forward_emit _) fun _ =>
        .bind (forward_emit _) fun _ => .pure _) (.throw _)
  · exact .bind strict_pass fun _ => .bind forward_position fun _ =>
      .bind (forward_emit _) fun _ => .pure _
  · exact .bind strict_attr fun _ => .bind (forward_emit _) fun _ => .pure _

theorem strict_declaration (depth : Nat) (name : Bytes) : Strict (declaration depth name) := by
  refine .after forward_skipBlank fun _ => .after forward_current fun _ => .ite ?_ ?_
  · exact .bind strict_next fun _ => .ite (.bind (forward_emit _) fun _ =>
      .bind strict_pass.forward fun _ => .pure _) (.throw _)
  · exact .bind strict_attr fun _ => .bind (forward_emit _) fun _ => .pure _

theorem forward_step (place : Place) : Forward (step place) := by
  obtain ⟨depth, phase⟩ := place
  cases phase with
  | content => exact forward_content depth
  | tag start name => exact (strict_tag depth start name).forward
  | declaration name => exact (strict_declaration depth name).forward

/-- A step passes at least one byte unless nothing is left to do. -/
theorem step_shrinks {place : Place} {c c' : Cursor} {p : Progress} (h : step place c = .ok p c') :
    p.place = none ∨ c'.rest.length < c.rest.length := by
  obtain ⟨depth, phase⟩ := place
  cases phase with
  | content => exact content_shrinks h
  | tag start name => exact .inr ((strict_tag depth start name).2 _ _ _ h)
  | declaration name => exact .inr ((strict_declaration depth name).2 _ _ _ h)

end Read
end XmlStream
