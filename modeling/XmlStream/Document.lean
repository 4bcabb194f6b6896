import XmlStream.Document.Step
import XmlStream.Handler
/-! Reading a document: its header, then one step after another until the root element has closed,
the input is used up, or something fails. A handler takes each event as soon as it is known, and
its error ends the reading there. -/
namespace XmlStream

variable {σ : Type}

namespace Read

def byteOrderMark : Bytes := [0xEF, 0xBB, 0xBF]

/-- Passes a byte order mark before `<`. An input of fewer than four bytes is not looked at. -/
def encoding : Read Unit := fun c =>
  if !c.has 4 || c.peek? == some .openAngle then .ok () c
  else if c.startsWith byteOrderMark && c.peekAt? 3 == some .openAngle then .ok () (c.advance 3)
  else .error .unsupportedEncoding c

def header (config : Config) : Read Progress := do
  encoding
  skipBlank
  let b ← peek?
  if b = some .openAngle then
    if config.strict then
      let b ← next
      if b = .question then openDeclaration 0 (some (utf8 "xml")) else throw .noDeclaration
    else goOn [] 0 .content
  else throw .noOpeningAngle

end Read

structure Ending (σ : Type) where
  state : σ
  error : Option Error
  position : Nat

namespace Document

def handOver (h : Handler σ Event) : σ → List Emission → σ × Option (Error × Nat)
  | s, [] => (s, none)
  | s, e :: more =>
    match h s e.event with
    | (s, none) => handOver h s more
    | (s, some error) => (s, some (error, e.position))

def readOn (h : Handler σ Event) (s : σ) (p : Progress) (c : Cursor) : Ending σ :=
  match handOver h s p.emissions with
  | (s, some (error, position)) => ⟨s, some error, position⟩
  | (s, none) =>
    match _hp : p.place with
    | none => ⟨s, none, c.pos⟩
    | some place =>
      match _h : Read.step place c with
      | .error cause c' => ⟨s, some (.malformed cause (some c'.pos)), c'.pos⟩
      | .ok p' c' => readOn h s p' c'
termination_by 2 * c.rest.length + if p.place.isSome then 1 else 0
decreasing_by
  have := (Read.forward_step place).length_le _h
  obtain hp | hl := Read.step_shrinks _h
  · simp [hp, _hp]; omega
  · split <;> split <;> omega

def read (config : Config) (doc : Bytes) (h : Handler σ Event) (s : σ) : Ending σ :=
  match Read.header config (.atStart doc) with
  | .error cause c => ⟨s, some (.malformed cause (some c.pos)), c.pos⟩
  | .ok p c => readOn h s p c

end Document
end XmlStream
