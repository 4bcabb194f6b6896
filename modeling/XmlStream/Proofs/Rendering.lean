import XmlStream.Proofs.Tree
import XmlStream.Proofs.Header
import XmlStream.Proofs.Handing
/-! Rendering. What is written of a tree is read as the events of the tree, from its beginning to
its end: escaped bytes decode to themselves, no body ends early, and text goes on up to the next
markup. -/
namespace XmlStream
open Grammar Document

namespace Tree

/-! Escaping. -/

/-- A byte is written as it is, or as a reference that stands for it. -/
theorem escapeByte_cases (b : Byte) :
    (escapeByte b = [b] ∧ b ≠ .ampersand ∧ b ≠ .openAngle ∧ b ≠ .quote) ∨
      ∃ n, escapeByte b = .ampersand :: (n ++ [.semicolon]) ∧ n ≠ [] ∧ .semicolon ∉ n ∧
        Reference.expand n = [b] := by
  unfold escapeByte
  split
  · rename_i h
    exact .inr ⟨utf8 "amp", by decide, by decide, by decide, by rw [h]; decide⟩
  split
  · rename_i h
    exact .inr ⟨utf8 "lt", by decide, by decide, by decide, by rw [h]; decide⟩
  split
  · rename_i h
    exact .inr ⟨utf8 "gt", by decide, by decide, by decide, by rw [h]; decide⟩
  split
  · rename_i h
    exact .inr ⟨utf8 "quot", by decide, by decide, by decide, by rw [h]; decide⟩
  · rename_i ha ho _ hq
    exact .inl ⟨rfl, ha, ho, hq⟩

/-- Escaped bytes decode to themselves, in text and in values. -/
theorem run_escape {stop : Byte} (hs : stop = .openAngle ∨ stop = .quote) (bytes : Bytes) :
    Run stop (escape bytes) bytes := by
  induction bytes with
  | nil => exact .nil
  | cons b bytes ih =>
    rw [escape_cons]
    obtain ⟨hb, ha, ho, hq⟩ | ⟨n, hb, hn, hm, he⟩ := escapeByte_cases b
    · have hstop : b ≠ stop := by
        obtain rfl | rfl := hs
        · exact ho
        · exact hq
      rw [hb]
      exact .plain hstop ha ih
    · have h := Run.reference hn hm ih
      rw [he] at h
      simpa [hb] using h

theorem length_le_escape (bytes : Bytes) : bytes.length ≤ (escape bytes).length := by
  induction bytes with
  | nil => exact Nat.le_refl 0
  | cons b bytes ih =>
    have hb : 1 ≤ (escapeByte b).length := by
      obtain ⟨hb, -⟩ | ⟨n, hb, -⟩ := escapeByte_cases b <;> simp [hb]
    rw [escape_cons, List.length_append, List.length_cons]
    omega

/-- Escaping changes something exactly when it writes a reference. -/
theorem escape_eq_iff (bytes : Bytes) : escape bytes = bytes ↔ .ampersand ∉ escape bytes := by
  induction bytes with
  | nil => simp [escape]
  | cons b bytes ih =>
    rw [escape_cons]
    obtain ⟨hb, ha, -⟩ | ⟨n, hb, hn, -⟩ := escapeByte_cases b
    · rw [hb, List.singleton_append, List.cons.injEq, List.mem_cons, ih]
      simp [Ne.symm ha]
    · have hlength := length_le_escape bytes
      rw [hb]
      constructor
      · intro h
        have := congrArg List.length h
        simp at this
        omega
      · intro h
        simp at h

theorem spanAt_eq (pos : Nat) (bytes : Bytes) :
    spanAt pos bytes =
      if .ampersand ∈ escape bytes then .transient bytes else .stable ⟨pos, escape bytes⟩ := by
  unfold spanAt
  by_cases h : escape bytes = bytes
  · rw [if_pos h, if_neg ((escape_eq_iff bytes).1 h), h]
  · rw [if_neg h, if_pos (Decidable.not_not.1 (mt (escape_eq_iff bytes).2 h))]

theorem quoted_escape (pos : Nat) (value : Bytes) :
    Read.Quoted pos (quoted (escape value)) (spanAt (pos + 1) value) :=
  ⟨_, _, rfl, run_escape (.inr rfl) value, spanAt_eq _ _⟩

theorem spelt_escape (pos : Nat) (bytes : Bytes) {rest : Bytes}
    (hr : rest.head? = some .openAngle) :
    Read.Spelt .openAngle pos (escape bytes) (spanAt pos bytes) rest :=
  ⟨.inr hr, _, run_escape (.inl rfl) bytes, spanAt_eq _ _⟩

/-! Bodies. -/

theorem upTo_section {body : Bytes} (hbody : ¬ utf8 "]]>" <:+: body) : UpTo (utf8 "]]>") body := by
  have he : utf8 "]]>" = [93, 93, 62] := by decide
  rw [he] at hbody ⊢
  induction body with
  | nil => intro n hn; cases hn
  | cons b body ih =>
    refine upTo_cons.2 ⟨fun h => ?_, ih fun h => hbody (h.trans (List.suffix_cons b body).isInfix)⟩
    -- an end that begins here lies inside the body, or its `>` would be a bracket of the real one
    match body with
    | [] => simp at h
    | [c] => simp at h
    | c :: d :: r =>
      obtain ⟨rfl, rfl, rfl⟩ : 93 = b ∧ 93 = c ∧ 62 = d := by simpa using h
      exact hbody ⟨[], r, rfl⟩

theorem upTo_comment {body : Bytes} (hbody : ¬ utf8 "--" <:+: body)
    (hlast : body.getLast? ≠ some .dash) : UpTo (utf8 "--") body := by
  have he : utf8 "--" = [.dash, .dash] := by decide
  rw [he] at hbody ⊢
  induction body with
  | nil => intro n hn; cases hn
  | cons b body ih =>
    match body with
    | [] =>
      refine upTo_cons.2 ⟨fun h => ?_, fun n hn => by cases hn⟩
      obtain rfl : Byte.dash = b := by simpa using h
      exact hlast rfl
    | c :: r =>
      refine upTo_cons.2 ⟨fun h => ?_, ih (fun h => ?_) (by simpa using hlast)⟩
      · obtain ⟨rfl, rfl⟩ : Byte.dash = b ∧ Byte.dash = c := by simpa using h
        exact hbody ⟨[], r, rfl⟩
      · exact hbody (h.trans (List.suffix_cons b _).isInfix)

end Tree

/-- From a place on, the bytes tell these events and lead to another place, or to the end of the
root element. -/
def Tells (place : Place) (pos : Nat) (w : Bytes) (es : List Event) (next : Option Place)
    (rest : Bytes) : Prop :=
  ∃ emissions : List Emission, emissions.map (·.event) = es ∧
    traceOn ⟨[], some place⟩ ⟨pos, w ++ rest⟩ =
      .prepend emissions (traceOn ⟨[], next⟩ ⟨pos + w.length, rest⟩)

namespace Tells

variable {place place' : Place} {pos pos' : Nat} {u v w rest : Bytes} {es es' : List Event}
  {next : Option Place}

theorem refl (place : Place) (pos : Nat) (rest : Bytes) : Tells place pos [] [] (some place) rest :=
  ⟨[], rfl, rfl⟩

theorem of_construct {p : Progress} (h : Construct place pos w p rest) :
    Tells place pos w (p.emissions.map (·.event)) p.place rest := by
  have hs := (Read.reads_step place ⟨pos, w ++ rest⟩ p _).2 ⟨w, rest, rfl, rfl, h⟩
  refine ⟨p.emissions, rfl, ?_⟩
  rw [traceOn_ok rfl hs, traceOn_emissions p]
  rfl

theorem trans (h : Tells place pos u es (some place') (v ++ rest))
    (h' : Tells place' pos' v es' next rest) (hpos : pos' = pos + u.length) :
    Tells place pos (u ++ v) (es ++ es') next rest := by
  obtain ⟨emissions, rfl, h⟩ := h
  obtain ⟨emissions', rfl, h'⟩ := h'
  subst hpos
  refine ⟨emissions ++ emissions', List.map_append, ?_⟩
  rw [List.append_assoc, h, h', List.length_append, ← Nat.add_assoc]
  simp only [Trace.prepend, List.append_assoc]

end Tells

namespace Tree

/-! Every part of a tree tells its events. -/

variable {d pos : Nat} {rest : Bytes}

theorem tells_attr (place : Place) (hp : place.phase ≠ .content) (a : Attribute) (pos : Nat)
    (rest : Bytes) : Tells place pos a.render
      [.attr a.name (spanAt (pos + 1 + a.name.val.text.length + 2) a.value)] (some place) rest := by
  have hs : utf8 " " = [32] := by decide
  have hw : Blanks (utf8 " ") := by
    rw [hs]
    exact List.forall_mem_singleton.2 rfl
  have hv := quoted_escape (pos + 1 + a.name.val.text.length + 1) a.value
  obtain ⟨d, phase⟩ := place
  cases phase with
  | content => exact (hp rfl).elim
  | tag start name => exact .of_construct (.attr hw a.name.property hv rfl)
  | declaration n => exact .of_construct (.declarationAttr hw a.name.property hv rfl)

theorem tells_attrs (place : Place) (hp : place.phase ≠ .content) (attrs : List Attribute)
    (pos : Nat) (rest : Bytes) :
    Tells place pos (renderAttrs attrs) (tellAttrs pos attrs) (some place) rest := by
  induction attrs generalizing pos with
  | nil => exact .refl place pos rest
  | cons a attrs ih => exact (tells_attr place hp a pos _).trans (ih _) rfl

/-- A name ends where its attributes begin or, without any, its tag ends. -/
theorem apart_renderAttrs (attrs : List Attribute) {b : Byte} {r : Bytes}
    (hb : b.isNameByte = false) (hc : b ≠ .colon) : Apart (renderAttrs attrs ++ b :: r) ∧
      (renderAttrs attrs ++ b :: r).head? ≠ some .colon := by
  cases attrs with
  | nil => exact ⟨Read.forall_head hb, fun h => hc (Option.some.inj h)⟩
  | cons a attrs =>
    have hs : utf8 " " = [32] := by decide
    simp only [renderAttrs, List.flatMap_cons, Attribute.render, hs]
    exact ⟨Read.forall_head (by decide), fun h => absurd (Option.some.inj h) (by decide)⟩

theorem tells_text (bytes : Bytes) (hr : rest.head? = some .openAngle) :
    Tells ⟨d + 1, .content⟩ pos (escape bytes) (tellText pos bytes) (some ⟨d + 1, .content⟩)
      rest := by
  unfold tellText
  by_cases h : bytes = []
  · rw [if_pos h, h]
    exact .refl _ pos rest
  · have hne : escape bytes ≠ [] := by
      have := length_le_escape bytes
      intro he
      rw [he] at this
      exact h (List.eq_nil_of_length_eq_zero (Nat.le_zero.1 this))
    rw [if_neg h]
    exact .of_construct (.text hne (spelt_escape pos bytes hr))

theorem tells_declaration (name : DeclarationName) (attrs : List Attribute) :
    Tells ⟨d, .content⟩ pos (Node.declaration name attrs).render
      ((Node.declaration name attrs).tell pos) (some ⟨d, .content⟩) rest := by
  have he : utf8 "?>" = [.question, .closeAngle] := by decide
  have hlength : (utf8 "<?").length = 2 := rfl
  have hopen : Tells ⟨d, .content⟩ pos (utf8 "<?" ++ name.val) [.startDeclaration name.val]
      (some ⟨d, .declaration name.val⟩) (renderAttrs attrs ++ (utf8 "?>" ++ rest)) := by
    rw [he]
    obtain ⟨hapart, -⟩ := apart_renderAttrs attrs (b := .question) (r := .closeAngle :: rest)
      (by decide) (by decide)
    exact .of_construct (.openDeclaration name.property (by simp) hapart)
  have hattrs := tells_attrs ⟨d, .declaration name.val⟩ (by simp) attrs
    (pos + 2 + name.val.length) (utf8 "?>" ++ rest)
  have hclose (pos : Nat) : Tells ⟨d, .declaration name.val⟩ pos (utf8 "?>")
      [.endDeclaration name.val] (some ⟨d, .content⟩) rest :=
    .of_construct (.declarationEnd (w := []) (by simp [Blanks]))
  exact (hopen.trans hattrs (by simp [hlength]; omega)).trans (hclose _) rfl

/-- A start tag up to the end of its attributes. -/
theorem tells_tag (d pos : Nat) (name : ElementName) (attrs : List Attribute) {b : Byte}
    {r : Bytes} (hb : b.isNameByte = false) (hc : b ≠ .colon) :
    Tells ⟨d, .content⟩ pos (.openAngle :: (name.val.text ++ renderAttrs attrs))
      (tellAttrs (pos + 1 + name.val.text.length) attrs) (some ⟨d, .tag pos name.val⟩)
      (b :: r) := by
  have hopen : Tells ⟨d, .content⟩ pos (.openAngle :: name.val.text) []
      (some ⟨d, .tag pos name.val⟩) (renderAttrs attrs ++ b :: r) := by
    obtain ⟨hapart, hcolon⟩ := apart_renderAttrs attrs (r := r) hb hc
    exact .of_construct (.openTag name.property (by simp) hapart fun _ => hcolon)
  have hattrs := tells_attrs ⟨d, .tag pos name.val⟩ (by simp) attrs
    (pos + 1 + name.val.text.length) (b :: r)
  exact hopen.trans hattrs (by simp; omega)

theorem tells_emptyElement (name : ElementName) (attrs : List Attribute) :
    Tells ⟨d, .content⟩ pos (Node.element name attrs []).render
      ((Node.element name attrs []).tell pos) (outOf d) rest := by
  have htag := tells_tag d pos name attrs (b := .slash) (r := .closeAngle :: rest) (by decide)
    (by decide)
  have hclose (n : Nat) : Tells ⟨d, .tag pos name.val⟩ n (utf8 "/>")
      [.startElement name ⟨pos, n + 2⟩, .endElement name ⟨pos, n + 2⟩] (outOf d) rest :=
    .of_construct (.selfClose (w := []) (by simp [Blanks]) rfl)
  rw [Node.render, Node.tell]
  exact htag.trans (hclose _) (by simp; omega)

theorem tells_closeTag (d pos : Nat) (name : ElementName) (rest : Bytes) :
    Tells ⟨d + 1, .content⟩ pos (utf8 "</" ++ name.val.text ++ [.closeAngle])
      [.endElement name ⟨pos, pos + 3 + name.val.text.length⟩] (outOf d) rest := by
  have h : Construct ⟨d + 1, .content⟩ pos (utf8 "</" ++ name.val.text ++ [] ++ [.closeAngle]) _
      rest := .closeTag name.property (by simp [Blanks]) rfl
  simp only [List.append_nil] at h
  exact .of_construct h

/-- An element whose children tell their events inside it. -/
theorem tells_element (name : ElementName) (attrs : List Attribute) {children : List Node}
    (hall : ∀ pos rest, rest.head? = some .openAngle →
      Tells ⟨d + 1, .content⟩ pos (renderAll children) (tellAll pos [] children)
        (some ⟨d + 1, .content⟩) rest) :
    Tells ⟨d, .content⟩ pos (Node.element name attrs children).render
      ((Node.element name attrs children).tell pos) (outOf d) rest := by
  by_cases hc : children = []
  · subst hc
    exact tells_emptyElement name attrs
  have he : utf8 "</" = [.openAngle, .slash] := by decide
  have hne : children.isEmpty = false := List.isEmpty_eq_false_iff.2 hc
  have hstart (n : Nat) (rest : Bytes) : Tells ⟨d, .tag pos name.val⟩ n [.closeAngle]
      [.startElement name ⟨pos, n + 1⟩] (some ⟨d + 1, .content⟩) rest :=
    .of_construct (.tagEnd (w := []) (by simp [Blanks]) rfl)
  rw [Node.render, Node.tell]
  simp only [hne, Bool.false_eq_true, if_false]
  have htag := tells_tag d pos name attrs (b := .closeAngle)
    (r := renderAll children ++ (utf8 "</" ++ name.val.text ++ [.closeAngle]) ++ rest)
    (by decide) (by decide)
  have hchildren := hall (pos + 1 + name.val.text.length + (renderAttrs attrs).length + 1)
    (utf8 "</" ++ name.val.text ++ [.closeAngle] ++ rest) (by rw [he]; rfl)
  have hinside := hchildren.trans (tells_closeTag d _ name rest) rfl
  have h := htag.trans ((hstart _ _).trans hinside rfl) (by simp; omega)
  simp only [List.append_assoc] at h ⊢
  exact h

/-! By induction on the tree: a node goes over to its children, and a list of nodes takes the text
along that it has met. -/

mutual
/-- Text is told where it ends, so markup has to follow it. -/
theorem tells_node (node : Node) (d pos : Nat) (rest : Bytes)
    (hr : node.isText = true → rest.head? = some .openAngle) :
    Tells ⟨d + 1, .content⟩ pos node.render (node.tell pos) (some ⟨d + 1, .content⟩) rest := by
  cases node with
  | element name attrs children =>
    exact tells_element name attrs fun pos rest hr => tells_all children (d + 1) pos [] rest hr
  | text bytes =>
    rw [Node.render, Node.tell]
    exact tells_text bytes (hr rfl)
  | cdata body =>
    rw [Node.render, Node.tell]
    exact .of_construct (.cdata (upTo_section body.property))
  | comment body =>
    rw [Node.render, Node.tell]
    exact .of_construct (.comment (upTo_comment body.property.1 body.property.2))
  | declaration name attrs => exact tells_declaration name attrs

/-- Text that has been met and the nodes after it, up to markup. -/
theorem tells_all (nodes : List Node) (d pos : Nat) (run rest : Bytes)
    (hr : rest.head? = some .openAngle) :
    Tells ⟨d + 1, .content⟩ pos (escape run ++ renderAll nodes) (tellAll pos run nodes)
      (some ⟨d + 1, .content⟩) rest := by
  cases nodes with
  | nil =>
    rw [renderAll, List.append_nil, tellAll]
    exact tells_text run hr
  | cons node nodes =>
    by_cases hn : node.isText = true
    · obtain ⟨bytes, rfl⟩ : ∃ bytes, node = .text bytes := by
        cases node with
        | text bytes => exact ⟨bytes, rfl⟩
        | _ => cases hn
      have h := tells_all nodes d pos (run ++ bytes) rest hr
      rw [renderAll, Node.render, tellAll, ← List.append_assoc, ← escape_append]
      exact h
    · have hn : node.isText = false := Bool.not_eq_true _ ▸ hn
      have hhead := head_render hn
      have hrun : Tells ⟨d + 1, .content⟩ pos (escape run) (tellText pos run)
          (some ⟨d + 1, .content⟩) (node.render ++ renderAll nodes ++ rest) := by
        refine tells_text run ?_
        rw [List.append_assoc, List.head?_append, hhead]
        rfl
      have hnode := tells_node node d (pos + (escape run).length) (renderAll nodes ++ rest)
        fun h => absurd h (by simp [hn])
      have hall := tells_all nodes d (pos + (escape run).length + node.render.length) [] rest hr
      rw [renderAll, tellAll_cons hn]
      exact hrun.trans (hnode.trans hall rfl) rfl
end

end Tree

namespace Document
open XmlStream.Tree

/-- What is written of a tree is read, without an error and to its last byte, as the events of the
tree and no others. -/
theorem read_render (name : ElementName) (attrs : List Attribute) (children : List Node) :
    let root := Node.element name attrs children
    read .lenient root.render Handler.keeping [] = ⟨root.tell 0, none, root.render.length⟩ := by
  intro root
  have hhead : root.render.head? = some .openAngle := head_render rfl
  have hstart : Start .lenient 0 [] ⟨[], some ⟨0, .content⟩⟩ root.render := .lenient rfl hhead
  have hheader : Read.header .lenient (.atStart root.render) =
      .ok ⟨[], some ⟨0, .content⟩⟩ ⟨0, root.render⟩ :=
    (Read.reads_header .lenient _ _ _).2 ⟨[], root.render, rfl, rfl, [], [], [], rfl,
      .inl ⟨rfl, .inr hhead⟩, by simp [Blanks], hstart⟩
  obtain ⟨emissions, hevents, htrace⟩ : Tells ⟨0, .content⟩ 0 root.render (root.tell 0) none [] :=
    tells_element name attrs fun pos rest hr => tells_all children 0 pos [] rest hr
  rw [List.append_nil, Nat.zero_add, traceOn_none (p := ⟨[], none⟩) rfl] at htrace
  have htold : trace .lenient root.render = ⟨emissions, none, root.render.length⟩ := by
    rw [trace, hheader]
    simp [htrace, Trace.prepend]
  rw [read_keeping, htold, Trace.events, hevents]

end Document
end XmlStream
