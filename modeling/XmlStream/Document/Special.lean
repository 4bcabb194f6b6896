import XmlStream.Document.Value
/-! Comments, character sections and document types: the tags that begin with `<!`. -/
namespace XmlStream.Read

/-- The rest of a comment. The first `--` has to be the one that closes it. -/
def comment : Read Unit := fun c =>
  match Cursor.occurrence? (utf8 "--") 0 c.rest with
  | none => .error .commentUnclosed (c.advance c.rest.length)
  | some n =>
    let after := c.advance (n + 2)
    if after.peek? = some .closeAngle then .ok () (after.advance 1)
    else .error .commentDashes after

def cdata : Read Slice := fun c =>
  match Cursor.occurrence? (utf8 "]]>") 0 c.rest with
  | none => .error .cdataUnclosed c
  | some n => .ok ⟨c.pos, c.rest.take n⟩ (c.advance (n + 3))

def identifier : Read Identifier := fun c =>
  if !c.has 6 then .error .doctypeTooShort c
  else if c.startsWith (utf8 "PUBLIC") then .ok .publicId (c.advance 6)
  else if c.startsWith (utf8 "SYSTEM") then .ok .systemId (c.advance 6)
  else .error .doctypeMalformed c

def gap : Read Unit := do
  require 1 .doctypeTooShort
  skipBlank
  require 1 .doctypeTooShort

def doctypeUri : Read (Option Bytes) := do
  let b ← peek?
  if b = some .closeAngle then return none
  else
    let uri ← literal
    gap
    let b ← peek?
    if b = some .closeAngle then return some uri else throw .doctypeUnclosed

def doctype : Read Doctype := do
  let root ← name
  skipBlank
  let keyword ← identifier
  gap
  let fpi ← literal
  gap
  let uri ← doctypeUri
  pass
  return ⟨keyword, root, fpi, uri⟩

theorem forward_comment : Forward comment := by
  intro c
  unfold comment
  split
  · exact Cursor.reaches_advance (Nat.le_refl _)
  · rename_i n hn
    have hb := (Cursor.occurrence?_bound hn).2
    have hl : (utf8 "--").length = 2 := rfl
    have hr : c.Reaches (c.advance (n + 2)) := Cursor.reaches_advance (by omega)
    simp only
    split
    · rename_i hp
      refine hr.trans (Cursor.reaches_advance ?_)
      cases he : (c.advance (n + 2)).rest with
      | nil => simp [Cursor.peek?, he] at hp
      | cons => simp
    · exact hr

theorem forward_cdata : Forward cdata := by
  intro c
  unfold cdata
  split
  · exact .refl c
  · rename_i n hn
    have hb := (Cursor.occurrence?_bound hn).2
    have hl : (utf8 "]]>").length = 3 := rfl
    exact Cursor.reaches_advance (by omega)

theorem forward_identifier : Forward identifier := by
  intro c
  unfold identifier
  split
  · exact .refl c
  · rename_i hc
    have hc : 6 ≤ c.rest.length := (c.has_iff 6).1 (by simpa using hc)
    split
    · exact Cursor.reaches_advance hc
    · split
      · exact Cursor.reaches_advance hc
      · exact .refl c

theorem forward_gap : Forward gap :=
  .bind (forward_require _ _) fun _ => .bind forward_skipBlank fun _ => forward_require _ _

theorem forward_doctypeUri : Forward doctypeUri :=
  .bind forward_peek? fun _ => .ite (.pure _) <| .bind forward_literal fun _ =>
    .bind forward_gap fun _ => .bind forward_peek? fun _ => .ite (.pure _) (.throw _)

theorem forward_doctype : Forward doctype :=
  .bind strict_name.forward fun _ => .bind forward_skipBlank fun _ =>
    .bind forward_identifier fun _ => .bind forward_gap fun _ => .bind forward_literal fun _ =>
      .bind forward_gap fun _ => .bind forward_doctypeUri fun _ =>
        .bind strict_pass.forward fun _ => .pure _

end XmlStream.Read
