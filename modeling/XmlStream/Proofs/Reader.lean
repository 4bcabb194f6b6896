import XmlStream.Document
/-! A reader as a machine: the offset of its cursor, how many elements are open, and a buffer that it
uses again and again. It takes bytes and slices of the document by their offsets, moves its cursor
by assignment and runs in loops, so it may go wrong in all the ways that a read cannot. -/
namespace XmlStream

structure Reader where
  position : Nat := 0
  depth : Nat := 0
  rootOpen : Bool := true
  scratch : Buffer := .empty

namespace Reader

/-- Work on a reader and the state of a handler. There is no answer to work that goes wrong: that
takes a byte or a slice from outside of the document, moves the cursor backwards, or goes round in a
loop more often than there are bytes in the document, and once more. -/
abbrev Work (σ α : Type) := ExceptT Error (StateT (Reader × σ) Option) α

variable {σ α : Type}

def reader : Work σ Reader := fun x => some (.ok x.1, x)
def update (f : Reader → Reader) : Work σ Unit := fun (r, s) => some (.ok (), (f r, s))
def here : Work σ Nat := fun x => some (.ok x.1.position, x)

def fail (cause : Cause) : Work σ α := fun (r, s) =>
  some (.error (.malformed cause (some r.position)), (r, s))

def tell (h : Handler σ Event) (event : Event) : Work σ Unit := fun (r, s) =>
  match h s event with
  | (s, none) => some (.ok (), (r, s))
  | (s, some error) => some (.error error, (r, s))

def advance (n : Nat) : Work σ Unit := update fun r => { r with position := r.position + n }

def moveTo (offset : Nat) : Work σ Unit := fun (r, s) =>
  if r.position ≤ offset then some (.ok (), ({ r with position := offset }, s)) else none

def reset : Work σ Unit := update fun r => { r with scratch := .empty }
def collect (bytes : Bytes) : Work σ Unit := update fun r => { r with scratch := r.scratch.append bytes }

variable (doc : Bytes)

def byteAt (offset : Nat) : Work σ Byte := fun x => doc[offset]?.map fun b => (.ok b, x)

def slice (start stop : Nat) : Work σ Bytes := fun x =>
  if start ≤ stop ∧ stop ≤ doc.length then some (.ok ((doc.take stop).drop start), x) else none

def look (f : Cursor → α) : Work σ α := fun x => some (.ok (f (.seek doc x.1.position)), x)

def current : Work σ Byte := do
  match ← look doc Cursor.peek? with
  | some b => return b
  | none => fail .prematureEnd

def next : Work σ Byte := do
  advance 1
  current doc

def require (cause : Cause) : Work σ Unit := do
  let r ← reader
  if r.position < doc.length then return () else fail cause

/-- Goes round at most so many times. A round answers whether there has to be another one. -/
def rounds (round : Work σ Bool) : Nat → Work σ Unit
  | 0 => fun _ => none
  | n + 1 => do
    let again ← round
    if again then rounds round n else return ()

def loop (round : Work σ Bool) : Work σ Unit := rounds round (doc.length + 1)

def blankRound : Work σ Bool := do
  let r ← reader
  if r.position < doc.length then
    let b ← byteAt doc r.position
    if b.isBlank then
      advance 1
      return true
    else return false
  else return false

def skipBlank : Work σ Unit := loop doc (blankRound doc)

def expectNext (text : String) : Work σ Unit := do
  let left ← look doc Cursor.remains
  if left < (utf8 text).length + 1 then fail .textTooShort
  else
    advance 1
    let found ← look doc (·.startsWith (utf8 text))
    if !found then fail (.textExpected text)
    else advance (utf8 text).length

def nameRound : Work σ Bool := do
  let b ← current doc
  if b.isNameByte then
    let _ ← next doc
    return true
  else return false

def name : Work σ Bytes := do
  let start ← here
  let b ← current doc
  if !b.isLetter then fail (.nameStart b)
  else
    loop doc (nameRound doc)
    let stop ← here
    slice doc start stop

def qname : Work σ QName := do
  let start ← here
  let first ← name doc
  let b ← look doc Cursor.peek?
  if b = some .colon then
    let _ ← next doc
    let second ← name doc
    return ⟨first, second⟩
  else
    let qualifier ← slice doc start start
    return ⟨qualifier, first⟩

def reference : Work σ Unit := do
  advance 1
  let start ← here
  match ← look doc (·.find? (· == .semicolon)) with
  | none => fail .referenceUnclosed
  | some stop =>
    if stop = start then fail .referenceEmpty
    else
      let name ← slice doc start stop
      update fun r => { r with scratch := Reference.expandInto r.scratch name }
      moveTo (stop + 1)

def isBoundary (stop b : Byte) : Bool := b == stop || b == .ampersand

def gather (start stop : Nat) : Work σ Unit := do
  let plain ← slice doc start stop
  collect plain
  moveTo stop

/-- Decodes a reference and what is plain after it. What to do where there is no stop byte any more is
told by the offset from which on it is missing. -/
def decodeRound (stop : Byte) (missing : Nat → Work σ Unit) : Work σ Bool := do
  reference doc
  let start ← here
  match ← look doc (·.find? (isBoundary stop)) with
  | none =>
    missing start
    return false
  | some offset =>
    gather doc start offset
    let b ← byteAt doc offset
    return b != stop

def decode (stop : Byte) (missing : Nat → Work σ Unit) : Work σ Unit :=
  loop doc (decodeRound doc stop missing)

def text : Work σ Span := do
  let start ← here
  match ← look doc (·.find? (isBoundary .openAngle)) with
  | none =>
    moveTo doc.length
    let bytes ← slice doc start doc.length
    return .stable ⟨start, bytes⟩
  | some stop =>
    let b ← byteAt doc stop
    if b = .openAngle then
      moveTo stop
      let bytes ← slice doc start stop
      return .stable ⟨start, bytes⟩
    else
      reset
      gather doc start stop
      decode doc .openAngle fun start => gather doc start doc.length
      let r ← reader
      if r.scratch.toList = [] then
        let bytes ← slice doc r.position r.position
        return .stable ⟨r.position, bytes⟩
      else return .transient r.scratch.toList

def missingQuote : Work σ α := do
  moveTo doc.length
  fail .quoteUnclosed

def openQuote : Work σ Unit := do
  let b ← look doc Cursor.peek?
  if b = some .quote then
    let _ ← next doc
    return ()
  else fail .valueUnquoted

def value : Work σ Span := do
  openQuote doc
  let start ← here
  match ← look doc (·.find? (isBoundary .quote)) with
  | none => missingQuote doc
  | some stop =>
    let b ← byteAt doc stop
    if b = .quote then
      moveTo (stop + 1)
      let bytes ← slice doc start stop
      return .stable ⟨start, bytes⟩
    else
      reset
      gather doc start stop
      decode doc .quote fun _ => missingQuote doc
      advance 1
      let r ← reader
      return .transient r.scratch.toList

def literal : Work σ Bytes := do
  openQuote doc
  let start ← here
  match ← look doc (·.find? (· == .quote)) with
  | none => missingQuote doc
  | some stop =>
    moveTo (stop + 1)
    slice doc start stop

def attr : Work σ (QName × Span) := do
  let name ← qname doc
  let b ← look doc Cursor.peek?
  if b = some .equals then
    let _ ← next doc
    let value ← value doc
    return (name, value)
  else fail (.attributeEquals name)

def comment : Work σ Unit := do
  match ← look doc (·.findText? (utf8 "--")) with
  | none =>
    moveTo doc.length
    fail .commentUnclosed
  | some dashes =>
    moveTo (dashes + 2)
    let b ← look doc Cursor.peek?
    if b = some .closeAngle then advance 1 else fail .commentDashes

def identifier : Work σ Identifier := do
  let left ← look doc Cursor.remains
  if left < 6 then fail .doctypeTooShort
  else
    let isPublic ← look doc (·.startsWith (utf8 "PUBLIC"))
    if isPublic then
      advance 6
      return .publicId
    else
      let isSystem ← look doc (·.startsWith (utf8 "SYSTEM"))
      if isSystem then
        advance 6
        return .systemId
      else fail .doctypeMalformed

def gap : Work σ Unit := do
  require doc .doctypeTooShort
  skipBlank doc
  require doc .doctypeTooShort

def doctypeUri : Work σ (Option Bytes) := do
  let b ← look doc Cursor.peek?
  if b = some .closeAngle then return none
  else
    let uri ← literal doc
    gap doc
    let b ← look doc Cursor.peek?
    if b = some .closeAngle then return some uri else fail .doctypeUnclosed

def doctype : Work σ Doctype := do
  let root ← name doc
  skipBlank doc
  let keyword ← identifier doc
  gap doc
  let fpi ← literal doc
  gap doc
  let uri ← doctypeUri doc
  advance 1
  return ⟨keyword, root, fpi, uri⟩

def encoding : Work σ Unit := do
  let left ← look doc Cursor.remains
  if left < 4 then return ()
  else
    let b ← look doc Cursor.peek?
    if b = some .openAngle then return ()
    else
      let marked ← look doc fun c =>
        c.startsWith Read.byteOrderMark && c.peekAt? 3 == some .openAngle
      if marked then advance 3 else fail .unsupportedEncoding

variable (h : Handler σ Event)

def tellAttr : Work σ Unit := do
  let a ← attr doc
  tell h (.attr a.1 a.2)

def cdata : Work σ Unit := do
  let start ← here
  match ← look doc (·.findText? (utf8 "]]>")) with
  | none => fail .cdataUnclosed
  | some stop =>
    moveTo (stop + 3)
    let r ← reader
    if r.depth = 0 then return ()
    else
      let bytes ← slice doc start stop
      tell h (.characters (.stable ⟨start, bytes⟩))

def special : Work σ Unit := do
  let left ← look doc Cursor.remains
  if left < 2 then fail .specialTooShort
  else
    let b ← next doc
    if b = .dash then
      let b ← next doc
      if b = .dash then
        advance 1
        let left ← look doc Cursor.remains
        if left < 3 then fail .commentTooShort else comment doc
      else fail .commentExpected
    else if b = .openBracket then
      expectNext doc "CDATA["
      cdata doc h
    else if b = .upperD then
      expectNext doc "OCTYPE"
      skipBlank doc
      let d ← doctype doc
      tell h (.doctype d)
    else fail .specialUnknown

def declarationRound (name : Bytes) : Work σ Bool := do
  skipBlank doc
  let b ← current doc
  if b = .question then
    let b ← next doc
    if b = .closeAngle then
      tell h (.endDeclaration name)
      advance 1
      return false
    else fail .declarationUnclosed
  else
    tellAttr doc h
    return true

def expectName (expected : Option Bytes) (found : Bytes) : Work σ Unit :=
  match expected with
  | none => return ()
  | some wanted => if found = wanted then return () else fail (.declarationName wanted found)

def declaration (expected : Option Bytes) : Work σ Unit := do
  let _ ← next doc
  let found ← name doc
  expectName expected found
  tell h (.startDeclaration found)
  loop doc (declarationRound doc h found)

def close : Work σ Unit := update fun r => if r.depth = 0 then { r with rootOpen := false } else r

def openRound (start : Nat) (name : QName) : Work σ Bool := do
  skipBlank doc
  let b ← current doc
  if b = .slash then
    let b ← next doc
    if b = .closeAngle then
      advance 1
      let stop ← here
      tell h (.startElement name ⟨start, stop⟩)
      tell h (.endElement name ⟨start, stop⟩)
      close
      return false
    else fail .selfCloseExpected
  else if b = .closeAngle then
    advance 1
    let stop ← here
    update fun r => { r with depth := r.depth + 1 }
    tell h (.startElement name ⟨start, stop⟩)
    return false
  else
    tellAttr doc h
    return true

def openElement (start : Nat) : Work σ Unit := do
  let name ← qname doc
  loop doc (openRound doc h start name)

def closeElement (start : Nat) : Work σ Unit := do
  let r ← reader
  if r.depth = 0 then fail .unexpectedClose
  else
    update fun r => { r with depth := r.depth - 1 }
    let _ ← next doc
    let name ← qname doc
    skipBlank doc
    let b ← current doc
    if b = .closeAngle then
      advance 1
      let stop ← here
      tell h (.endElement name ⟨start, stop⟩)
      close
    else fail .closeExpected

def element : Work σ Unit := do
  let start ← here
  let b ← next doc
  if b = .slash then closeElement doc h start
  else if b = .exclamation then special doc h
  else if b = .question then declaration doc h none
  else if b.isLetter then openElement doc h start
  else fail .letterExpected

def skipOutside : Work σ Unit := do
  let stop ← look doc (·.find? (· == .openAngle))
  moveTo (stop.getD doc.length)

def bodyRound : Work σ Bool := do
  match ← look doc Cursor.peek? with
  | none => return false
  | some b =>
    if b = .openAngle then
      element doc h
      let r ← reader
      return r.rootOpen
    else
      let r ← reader
      if r.depth = 0 then
        skipOutside doc
        return true
      else
        let t ← text doc
        tell h (.characters t)
        return true

def header (config : Config) : Work σ Unit := do
  encoding doc
  skipBlank doc
  let b ← look doc Cursor.peek?
  if b = some .openAngle then
    if config.strict then
      let b ← next doc
      if b = .question then declaration doc h (some (utf8 "xml")) else fail .noDeclaration
    else return ()
  else fail .noOpeningAngle

def parse (config : Config) : Work σ Unit := do
  update fun _ => {}
  header doc h config
  skipBlank doc
  loop doc (bodyRound doc h)
  let r ← reader
  if r.depth = 0 then return () else fail (.elementsOpen r.depth)

end Reader
end XmlStream
