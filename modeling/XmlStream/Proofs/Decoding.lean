import XmlStream.Proofs.Numerals
import XmlStream.Proofs.Standing
import XmlStream.Proofs.Rendering
import XmlStream.Proofs.Strictness
/-! Decoding. What text and values decode to is said here on their bytes, without the reader's buffer
and loops and without its tables: where a run ends, what each reference in it stands for, and what
comes of the whole. Text and values are decoded alike. -/
namespace XmlStream
open Grammar Document

variable {σ : Type}

namespace Reference

def markup : List (Bytes × Bytes) :=
  [(utf8 "lt", utf8 "<"), (utf8 "gt", utf8 ">"), (utf8 "amp", utf8 "&"), (utf8 "apos", utf8 "'"),
    (utf8 "quot", utf8 "\"")]

/-- A reference stands for a byte of markup, for the character that it has the number of, or for its
name. -/
inductive StandsFor : Bytes → Bytes → Prop
  | named {name bytes} : (name, bytes) ∈ markup → StandsFor name bytes
  | numbered {name n} {c : Char} : Numbers name n → IsCode n → c.toNat = n →
      StandsFor name (String.utf8EncodeChar c)
  | other {name} : name ∉ markup.map Prod.fst → (∀ n, Numbers name n → ¬ IsCode n) →
      StandsFor name name

theorem named?_eq_some_iff {name : Bytes} {b : Byte} :
    named? name = some b ↔ (name, [b]) ∈ markup := by
  have hmarkup : markup = [(utf8 "lt", [.openAngle]), (utf8 "gt", [.closeAngle]),
    (utf8 "amp", [.ampersand]), (utf8 "apos", [.apostrophe]), (utf8 "quot", [.quote])] := by decide
  have hnames : (markup.map Prod.fst).Nodup := by decide
  simp only [hmarkup, List.map_cons, List.map_nil, List.nodup_cons, List.mem_cons] at hnames
  unfold named?
  simp only [hmarkup, List.mem_cons, Prod.mk.injEq]
  grind

theorem singleton_of_markup {name bytes : Bytes} (h : (name, bytes) ∈ markup) :
    ∃ b, bytes = [b] := by
  have hmarkup : ∀ entry ∈ markup, entry.2 = [entry.2.headD 0] := by decide
  exact ⟨_, hmarkup _ h⟩

theorem named?_eq_none_iff {name : Bytes} : named? name = none ↔ name ∉ markup.map Prod.fst := by
  simp only [Option.eq_none_iff_forall_ne_some, ne_eq, named?_eq_some_iff, List.mem_map, not_exists,
    not_and, Prod.forall]
  constructor
  · rintro h _ bytes hmem rfl
    obtain ⟨b, rfl⟩ := singleton_of_markup hmem
    exact h b hmem
  · exact fun h b hmem => h name [b] hmem rfl

/-- What a reference is put as is what it stands for, and nothing else. -/
theorem standsFor_iff {name bytes : Bytes} : StandsFor name bytes ↔ expand name = bytes := by
  constructor
  · intro h
    cases h with
    | named h =>
      obtain ⟨b, rfl⟩ := singleton_of_markup h
      rw [expand, named?_eq_some_iff.2 h]
    | numbered hn hcode hc =>
      have hnamed : named? name = none := by cases hn <;> exact named?_hash _
      rw [expand, hnamed, numbered?_eq_some_iff.2 ⟨_, hn, hcode, hc⟩]
    | other hnot hnumber =>
      rw [expand, named?_eq_none_iff.2 hnot, numbered?_eq_none_iff.2 hnumber]
  · rintro rfl
    unfold expand
    cases hnamed : named? name with
    | some b => exact .named (named?_eq_some_iff.1 hnamed)
    | none =>
      cases hnumber : numbered? name with
      | some c =>
        obtain ⟨n, hn, hcode, hc⟩ := numbered?_eq_some_iff.1 hnumber
        exact .numbered hn hcode hc
      | none => exact .other (named?_eq_none_iff.1 hnamed) (numbered?_eq_none_iff.1 hnumber)

end Reference

/-- The bytes before the first stop byte that stands outside of every reference, or all of them. A
reference reaches from `&` to the next `;`; the flag says whether one is open. -/
def runAhead (stop : Byte) : Bool → Bytes → Bytes
  | _, [] => []
  | true, b :: r => b :: runAhead stop (b ≠ .semicolon) r
  | false, b :: r => if b = stop then [] else b :: runAhead stop (b = .ampersand) r

/-- What bytes decode to. A reference goes on to the first `;` after its `&`, and has a name. -/
inductive Decodes : Bytes → Bytes → Prop
  | nil : Decodes [] []
  | plain {b r v} : b ≠ .ampersand → Decodes r v → Decodes (b :: r) (b :: v)
  | reference {n r u v} : n ≠ [] → .semicolon ∉ n → Reference.StandsFor n u → Decodes r v →
      Decodes (.ampersand :: (n ++ .semicolon :: r)) (u ++ v)

/-- A span is what a slice of the document decodes to: the slice itself if there is no `&` in it. -/
def Decoded (source : Slice) (v : Span) : Prop :=
  Decodes source.bytes v.bytes ∧
    v = if .ampersand ∈ source.bytes then .transient v.bytes else .stable source

theorem runAhead_reference (stop : Byte) {n : Bytes} (hn : .semicolon ∉ n) (r : Bytes) :
    runAhead stop true (n ++ .semicolon :: r) = n ++ .semicolon :: runAhead stop false r := by
  induction n with
  | nil => rfl
  | cons b n ih =>
    have hb : b ≠ .semicolon := fun h => hn (h ▸ List.mem_cons_self)
    rw [List.cons_append, runAhead, decide_eq_true hb, ih fun h => hn (List.mem_cons_of_mem b h)]
    rfl

/-- Where the name of a reference ends is told by its bytes. -/
theorem reference_inj {n n' r r' : Bytes} (hn : .semicolon ∉ n) (hn' : .semicolon ∉ n')
    (h : n ++ .semicolon :: r = n' ++ .semicolon :: r') : n = n' ∧ r = r' := by
  have hspan {m t : Bytes} (hm : .semicolon ∉ m) :
      (m ++ .semicolon :: t).takeWhile (· != .semicolon) = m ∧
        (m ++ .semicolon :: t).dropWhile (· != .semicolon) = .semicolon :: t :=
    Read.span_iff.2 ⟨rfl, Read.all_ne_iff.2 hm, Read.stopped_iff.2 (.inr rfl)⟩
  obtain ⟨hname, hrest⟩ := hspan (t := r) hn
  rw [h, (hspan hn').1] at hname
  rw [h, (hspan hn').2] at hrest
  exact ⟨hname.symm, (List.cons.inj hrest).2.symm⟩

theorem Decodes.unique {w v v' : Bytes} (h : Decodes w v) (h' : Decodes w v') : v = v' := by
  induction h generalizing v' with
  | nil =>
    cases h'
    rfl
  | plain hb _ ih =>
    cases h' with
    | plain _ h' => rw [ih h']
    | reference => exact (hb rfl).elim
  | @reference n r u v _ hn hu _ ih =>
    generalize hw : Byte.ampersand :: (n ++ .semicolon :: r) = w at h'
    cases h' with
    | nil => cases hw
    | plain hb => exact (hb (List.cons.inj hw).1.symm).elim
    | reference _ hn' hu' h' =>
      obtain ⟨rfl, rfl⟩ := reference_inj hn hn' (List.cons.inj hw).2
      rw [← Reference.standsFor_iff.1 hu, ← Reference.standsFor_iff.1 hu', ih h']

namespace Grammar

variable {stop : Byte} {w v rest : Bytes}

/-- A run is what the bytes ahead begin with. -/
theorem Run.eq_runAhead (h : Run stop w v) (hs : stop ≠ .ampersand)
    (hr : rest = [] ∨ rest.head? = some stop) : runAhead stop false (w ++ rest) = w := by
  induction h with
  | nil =>
    obtain rfl | hr := hr
    · rfl
    · obtain ⟨r, rfl⟩ := List.head?_eq_some_iff.1 hr
      exact if_pos rfl
  | plain hb ha _ ih =>
    rw [List.cons_append, runAhead, if_neg hb, decide_eq_false ha, ih]
  | @reference n r v _ hn _ ih =>
    rw [List.cons_append, runAhead, if_neg hs.symm, List.append_assoc, List.cons_append,
      decide_eq_true rfl, runAhead_reference stop hn, ih]

theorem Run.decodes (h : Run stop w v) : Decodes w v := by
  induction h with
  | nil => exact .nil
  | plain _ ha _ ih => exact .plain ha ih
  | reference hne hn _ ih => exact .reference hne hn (Reference.standsFor_iff.2 rfl) ih

/-- Where another byte stops a run, it is the same run if that byte is not in it. -/
theorem Run.of_not_mem {stop' : Byte} (h : Run stop w v) (hw : stop' ∉ w) : Run stop' w v := by
  induction h with
  | nil => exact .nil
  | plain _ ha _ ih =>
    rw [List.mem_cons, not_or] at hw
    exact .plain (Ne.symm hw.1) ha (ih hw.2)
  | reference hne hn _ ih =>
    simp only [List.mem_cons, List.mem_append, not_or] at hw
    exact .reference hne hn (ih hw.2.2.2)

/-- A run does not go beyond a stop byte if no `;` comes at or after it. -/
theorem Run.eq_of_append {r s : Bytes} (h : Run stop w v) (hs : stop ≠ .ampersand)
    (hend : rest = [] ∨ rest.head? = some stop) (hw : w ++ rest = r ++ stop :: s)
    (hr : stop ∉ r) (hsemi : .semicolon ∉ stop :: s) : w = r := by
  induction h generalizing r with
  | nil =>
    cases r with
    | nil => rfl
    | cons b r =>
      obtain rfl : rest = b :: (r ++ stop :: s) := hw
      simp at hend
      exact (hr (hend ▸ List.mem_cons_self)).elim
  | @plain b w v hb _ _ ih =>
    cases r with
    | nil => exact (hb (List.cons.inj hw).1).elim
    | cons b' r =>
      rw [List.cons_append, List.cons_append, List.cons.injEq] at hw
      obtain ⟨rfl, hw⟩ := hw
      rw [ih hw fun h => hr (List.mem_cons_of_mem b h)]
  | @reference n w v _ hn _ ih =>
    cases r with
    | nil => exact (hs (List.cons.inj hw).1.symm).elim
    | cons b r =>
      rw [List.cons_append, List.cons_append, List.cons.injEq, List.append_assoc,
        List.cons_append] at hw
      obtain ⟨rfl, hw⟩ := hw
      -- the `;` of the reference stands before the stop byte
      obtain ⟨t, rfl, ht⟩ | ⟨t, -, ht⟩ := List.append_eq_append_iff.1 hw
      · cases t with
        | nil => exact (hsemi ((List.cons.inj ht).1 ▸ List.mem_cons_self)).elim
        | cons b t =>
          rw [List.cons_append, List.cons.injEq] at ht
          obtain ⟨rfl, ht⟩ := ht
          rw [ih ht fun h => hr (by simp [h])]
      · exact (hsemi (ht ▸ by simp)).elim

end Grammar

theorem decoded_of_spelt {stop : Byte} {source : Slice} {v : Span} {rest : Bytes}
    (h : Read.Spelt stop source.offset source.bytes v rest) : Decoded source v := by
  obtain ⟨-, bytes, hrun, rfl⟩ := h
  have hdecode := hrun.decodes
  unfold Decoded
  split
  · exact ⟨hdecode, rfl⟩
  · rename_i ha
    obtain ⟨rfl, -⟩ := Read.plain_of_run hrun ha
    exact ⟨hdecode, rfl⟩

/-! Where a run fails, so does the step that reads it. -/

namespace Read

variable {cause : Cause} {c' : Cursor}

theorem run_nil (stop : Byte) (pos : Nat) : run stop ⟨pos, []⟩ = .ok (.stable ⟨pos, []⟩) ⟨pos, []⟩ :=
  rfl

theorem value_of_error {pos : Nat} {ahead : Bytes}
    (h : run .quote ⟨pos + 1, ahead⟩ = .error cause c') :
    value ⟨pos, .quote :: ahead⟩ = .error cause c' := by
  cases ahead with
  | nil => cases (run_nil .quote _).symm.trans h
  | cons b r =>
    have hopen : openQuote ⟨pos, .quote :: b :: r⟩ = .ok () ⟨pos + 1, b :: r⟩ := rfl
    unfold value
    rw [bind_ok hopen, bind_error h]

theorem attr_of_error {pos : Nat} {n : QName} {ahead : Bytes} (hn : IsQName n)
    (h : run .quote ⟨pos + n.text.length + 2, ahead⟩ = .error cause c') :
    attr ⟨pos, n.text ++ .equals :: .quote :: ahead⟩ = .error cause c' := by
  have hcolon : (Byte.equals :: .quote :: ahead).head? ≠ some .colon :=
    fun h => absurd (Option.some.inj h) (by decide)
  have hname : qname ⟨pos, n.text ++ .equals :: .quote :: ahead⟩ =
      .ok n ⟨pos + n.text.length, .equals :: .quote :: ahead⟩ :=
    (reads_qname _ _ _).2 ⟨_, _, rfl, rfl, rfl, hn, nofun, forall_head (by decide), fun _ => hcolon⟩
  have hnext : next ⟨pos + n.text.length, .equals :: .quote :: ahead⟩ =
      .ok .quote ⟨pos + n.text.length + 1, .quote :: ahead⟩ := rfl
  have hpeek : peek? ⟨pos + n.text.length, .equals :: .quote :: ahead⟩ =
      .ok (some .equals) ⟨pos + n.text.length, .equals :: .quote :: ahead⟩ := rfl
  unfold attr
  rw [bind_ok hname, bind_ok hpeek, if_pos rfl, bind_ok hnext, bind_error (value_of_error h)]

theorem step_value_of_error {place : Place} {pos : Nat} {w : Bytes} {n : QName} {ahead : Bytes}
    (hp : place.phase ≠ .content) (hw : Blanks w) (hn : IsQName n)
    (h : run .quote ⟨pos + w.length + n.text.length + 2, ahead⟩ = .error cause c') :
    step place ⟨pos, w ++ (n.text ++ .equals :: .quote :: ahead)⟩ = .error cause c' := by
  have hblank : skipBlank ⟨pos, w ++ (n.text ++ .equals :: .quote :: ahead)⟩ =
      .ok () ⟨pos + w.length, n.text ++ .equals :: .quote :: ahead⟩ := by
    refine (reads_skipBlank _ _ _).2 ⟨_, _, rfl, rfl, hw, ?_⟩
    have hhead := not_blank_of_qname hn (.equals :: .quote :: ahead) []
    rwa [List.append_nil] at hhead
  have hattr := attr_of_error hn h
  obtain ⟨b, r, hb, hl⟩ := letter_of_qname hn
  have hcurrent : current ⟨pos + w.length, n.text ++ .equals :: .quote :: ahead⟩ =
      .ok b ⟨pos + w.length, n.text ++ .equals :: .quote :: ahead⟩ := by
    rw [hb]
    rfl
  have hslash : b ≠ .slash := ne_of_letter hl rfl
  have hclose : b ≠ .closeAngle := ne_of_letter hl rfl
  have hquestion : b ≠ .question := ne_of_letter hl rfl
  obtain ⟨depth, phase⟩ := place
  cases phase with
  | content => exact (hp rfl).elim
  | tag start name =>
    change tag depth start name _ = _
    unfold tag
    rw [bind_ok hblank, bind_ok hcurrent, if_neg hslash, if_neg hclose, bind_error hattr]
  | declaration name =>
    change Read.declaration depth name _ = _
    unfold Read.declaration
    rw [bind_ok hblank, bind_ok hcurrent, if_neg hquestion, bind_error hattr]

theorem step_text_of_error {d pos : Nat} {ahead : Bytes} (hhead : ahead.head? ≠ some .openAngle)
    (h : run .openAngle ⟨pos, ahead⟩ = .error cause c') :
    step ⟨d + 1, .content⟩ ⟨pos, ahead⟩ = .error cause c' := by
  cases ahead with
  | nil => cases (run_nil .openAngle _).symm.trans h
  | cons b r =>
    have hb : b ≠ .openAngle := fun h => hhead (congrArg some h)
    have htext : text ⟨pos, b :: r⟩ = .error cause c' := bind_error h
    change content (d + 1) ⟨pos, b :: r⟩ = _
    simp only [content, if_neg hb, if_neg (Nat.succ_ne_zero d)]
    exact bind_error htext

/-- A run that cannot be gone through fails, if no `;` comes at or after its stop byte. -/
theorem run_eq_error {stop : Byte} (hs : stop ≠ .ampersand) {r s : Bytes} (hr : stop ∉ r)
    (hsemi : .semicolon ∉ stop :: s) (hrun : ¬ ∃ v, Run stop r v) (pos : Nat) :
    ∃ cause c', run stop ⟨pos, r ++ stop :: s⟩ = .error cause c' := by
  cases h : run stop ⟨pos, r ++ stop :: s⟩ with
  | error cause c' => exact ⟨cause, c', rfl⟩
  | ok v c' =>
    obtain ⟨w, rest, hw, -, hend, bytes, hbytes, -⟩ := (reads_run hs _ _ _).1 h
    obtain rfl := hbytes.eq_of_append hs hend hw.symm hr hsemi
    exact (hrun ⟨bytes, hbytes⟩).elim

end Read

/-! The same bytes as text and as a value. -/

theorem isQName_of_letter {b : Byte} (hb : b.isLetter = true) : IsQName ⟨[], [b]⟩ :=
  ⟨.inl rfl, b, [], rfl, hb, List.forall_mem_nil _⟩

theorem blanks_space : Blanks [32] := List.forall_mem_singleton.2 rfl

def aloneName : Tree.ElementName := ⟨⟨[], utf8 "a"⟩, isQName_of_letter rfl⟩

def aloneText (r : Bytes) : Bytes := utf8 "<a>" ++ (r ++ utf8 "</a>")

def aloneValue (r : Bytes) : Bytes := utf8 "<a v=\"" ++ (r ++ utf8 "\"/>")

section
variable {w rest : Bytes} {es : List Event} {next : Option Place}

/-- How a document goes on whose beginning tells some events. -/
theorem trace_of_tells (h : Tells ⟨0, .content⟩ 0 w es next rest)
    (hhead : (w ++ rest).head? = some .openAngle) :
    ∃ emissions, told emissions = es ∧ trace .lenient (w ++ rest) =
      .prepend emissions (traceOn ⟨[], next⟩ ⟨w.length, rest⟩) := by
  obtain ⟨emissions, hevents, htrace⟩ := h
  rw [Nat.zero_add] at htrace
  exact ⟨emissions, hevents, by rw [trace_of_header (Read.header_of_angle hhead), htrace]⟩

theorem read_of_tells (h : Tells ⟨0, .content⟩ 0 w es none []) (hhead : w.head? = some .openAngle) :
    read .lenient w Handler.keeping [] = ⟨es, none, w.length⟩ := by
  obtain ⟨emissions, hevents, htrace⟩ := trace_of_tells h (by rwa [List.append_nil])
  rw [List.append_nil, traceOn_over] at htrace
  rw [read_keeping, htrace]
  simp [Trace.prepend, Trace.events, ← hevents]

/-- A document fails where a step fails that its beginning leads to. -/
theorem read_error_of_tells {place : Place} {cause : Cause} {c' : Cursor}
    (h : Tells ⟨0, .content⟩ 0 w es (some place) rest)
    (hhead : (w ++ rest).head? = some .openAngle)
    (hs : Read.step place ⟨w.length, rest⟩ = .error cause c') :
    (read .lenient (w ++ rest) Handler.keeping []).error ≠ none := by
  obtain ⟨emissions, -, htrace⟩ := trace_of_tells h hhead
  rw [traceOn_error rfl hs] at htrace
  rw [read_keeping, htrace]
  exact nofun

end

theorem tells_aloneText (rest : Bytes) : Tells ⟨0, .content⟩ 0 (utf8 "<a>")
    [.startElement aloneName ⟨0, 3⟩] (some ⟨1, .content⟩) rest := by
  have hopen := Tree.tells_tag 0 0 aloneName [] (b := .closeAngle) (r := rest) (by decide)
    (by decide)
  have hend : Tells ⟨0, .tag 0 aloneName⟩ 2 [.closeAngle] [.startElement aloneName ⟨0, 3⟩]
      (some ⟨1, .content⟩) rest := .of_construct (.tagEnd (w := []) nofun rfl)
  exact hopen.trans hend rfl

theorem tells_aloneValue (r : Bytes) : Tells ⟨0, .content⟩ 0 (utf8 "<a") []
    (some ⟨0, .tag 0 aloneName⟩) (32 :: r) :=
  Tree.tells_tag 0 0 aloneName [] (by decide) (by decide)

/-- What is told of a run that can be gone through, and where it stands. -/
theorem read_aloneText {r bytes : Bytes} (hne : r ≠ []) (hrun : Run .openAngle r bytes) :
    let v : Span := if .ampersand ∈ r then .transient bytes else .stable ⟨3, r⟩
    read .lenient (aloneText r) Handler.keeping [] =
      ⟨[.startElement aloneName ⟨0, 3⟩, .characters v,
        .endElement aloneName ⟨3 + r.length, 3 + r.length + 4⟩], none, (aloneText r).length⟩ := by
  intro v
  have htext : Tells ⟨1, .content⟩ 3 r [.characters v] (some ⟨1, .content⟩) (utf8 "</a>" ++ []) :=
    .of_construct (.text hne ⟨.inr rfl, bytes, hrun, rfl⟩)
  have hclose : Tells ⟨1, .content⟩ (3 + r.length) (utf8 "</a>") _ none [] :=
    Tree.tells_closeTag 0 (3 + r.length) aloneName []
  exact read_of_tells ((tells_aloneText _).trans (htext.trans hclose rfl) rfl) rfl

theorem read_aloneValue {r bytes : Bytes} (hrun : Run .quote r bytes) :
    let v : Span := if .ampersand ∈ r then .transient bytes else .stable ⟨6, r⟩
    let extent : Extent := ⟨0, (aloneValue r).length⟩
    read .lenient (aloneValue r) Handler.keeping [] =
      ⟨[.attr ⟨[], utf8 "v"⟩ v, .startElement aloneName extent, .endElement aloneName extent],
        none, (aloneValue r).length⟩ := by
  intro v extent
  have hname : IsQName ⟨[], utf8 "v"⟩ := isQName_of_letter rfl
  let attr : Bytes := utf8 " v=\"" ++ (r ++ [.quote])
  have hdoc : aloneValue r = utf8 "<a" ++ (attr ++ utf8 "/>") := by
    have hopen : utf8 "<a v=\"" = utf8 "<a" ++ utf8 " v=\"" := by decide
    have hclose : utf8 "\"/>" = [.quote] ++ utf8 "/>" := by decide
    simp only [aloneValue, attr, hopen, hclose, List.append_assoc]
  have hlength : (aloneValue r).length = 2 + attr.length + 2 := by
    rw [hdoc, List.length_append, List.length_append, ← Nat.add_assoc]
    rfl
  have hattr : Tells ⟨0, .tag 0 aloneName⟩ 2 attr [.attr ⟨[], utf8 "v"⟩ v]
      (some ⟨0, .tag 0 aloneName⟩) (utf8 "/>" ++ []) :=
    .of_construct (.attr (w := [32]) blanks_space hname ⟨r, bytes, rfl, hrun, rfl⟩ rfl)
  have hclose : Tells ⟨0, .tag 0 aloneName⟩ (2 + attr.length) (utf8 "/>")
      [.startElement aloneName extent, .endElement aloneName extent] none [] :=
    .of_construct (.selfClose (w := []) nofun hlength)
  have h := (tells_aloneValue _).trans (hattr.trans hclose rfl) rfl
  rw [hdoc]
  exact read_of_tells h rfl

theorem read_aloneText_error {r : Bytes} (hne : r ≠ []) (hr : .openAngle ∉ r)
    (hrun : ¬ ∃ v, Run .openAngle r v) :
    (read .lenient (aloneText r) Handler.keeping []).error ≠ none := by
  obtain ⟨cause, c', hfail⟩ := Read.run_eq_error (by decide) hr (s := utf8 "/a>") (by decide) hrun 3
  have hhead : (r ++ utf8 "</a>").head? ≠ some .openAngle := by
    obtain ⟨b, r, rfl⟩ := List.exists_cons_of_ne_nil hne
    exact fun h => hr (Option.some.inj h ▸ List.mem_cons_self)
  exact read_error_of_tells (tells_aloneText _) rfl (Read.step_text_of_error hhead hfail)

theorem read_aloneValue_error {r : Bytes} (hr : .quote ∉ r) (hrun : ¬ ∃ v, Run .quote r v) :
    (read .lenient (aloneValue r) Handler.keeping []).error ≠ none := by
  have hname : IsQName ⟨[], utf8 "v"⟩ := isQName_of_letter rfl
  obtain ⟨cause, c', hfail⟩ := Read.run_eq_error (by decide) hr (s := utf8 "/>") (by decide) hrun 6
  have hdoc : aloneValue r =
      utf8 "<a" ++ ([32] ++ ([118] ++ .equals :: .quote :: (r ++ .quote :: utf8 "/>"))) := rfl
  have hphase : (⟨0, .tag 0 aloneName⟩ : Place).phase ≠ .content := nofun
  have hstep := Read.step_value_of_error hphase blanks_space hname hfail
  rw [hdoc]
  exact read_error_of_tells (tells_aloneValue _) rfl hstep

/-- The same bytes are refused as text and as a value, or told alike. -/
def AlikeAlone (config : Config) (r : Bytes) : Prop :=
  let text := read config (aloneText r) Handler.keeping []
  let value := read config (aloneValue r) Handler.keeping []
  (text.error ≠ none ∧ value.error ≠ none) ∨
    text.error = none ∧ value.error = none ∧ ∃ name other extent start stop v v',
      text.state = [.startElement name start, .characters v, .endElement name stop] ∧
      value.state = [.attr other v', .startElement name extent, .endElement name extent] ∧
      v.alike v' = true

theorem alone_alike (config : Config) {r : Bytes} (hne : r ≠ []) (ho : .openAngle ∉ r)
    (hq : .quote ∉ r) : AlikeAlone config r := by
  obtain ⟨strict⟩ := config
  unfold AlikeAlone
  intro text value
  cases strict with
  | true =>
    have hbegins : Begins (aloneText r) (97 :: .closeAngle :: (r ++ utf8 "</a>")) := .plain
    obtain ⟨_, _, htext⟩ := read_strict_undeclared Handler.keeping [] (.other hbegins (by decide))
    have hbegins : Begins (aloneValue r) (97 :: 32 :: 118 :: .equals :: .quote ::
      (r ++ utf8 "\"/>")) := .plain
    obtain ⟨_, _, hvalue⟩ := read_strict_undeclared Handler.keeping [] (.other hbegins (by decide))
    exact .inl ⟨by rw [show text = _ from htext]; exact nofun,
      by rw [show value = _ from hvalue]; exact nofun⟩
  | false =>
    by_cases hrun : ∃ bytes, Run .openAngle r bytes
    · obtain ⟨bytes, hrun⟩ := hrun
      have htext := read_aloneText hne hrun
      have hvalue := read_aloneValue (hrun.of_not_mem hq)
      change text = _ at htext
      change value = _ at hvalue
      rw [htext, hvalue]
      refine .inr ⟨rfl, rfl, _, _, _, _, _, _, _, rfl, rfl, ?_⟩
      by_cases ha : .ampersand ∈ r <;> simp [ha, Span.alike, Span.isTransient, Span.bytes]
    · have hrun' : ¬ ∃ bytes, Run .quote r bytes :=
        fun ⟨bytes, h⟩ => hrun ⟨bytes, h.of_not_mem ho⟩
      exact .inl ⟨read_aloneText_error hne ho hrun, read_aloneValue_error hq hrun'⟩

/-- One decoding for text and values. Bytes decode to one thing at most. Whatever the handler does, the
characters it is told are either a run of text, which goes on to the first `<` outside of references,
or the body of a section as it stands; and the value of an attribute goes on to the first quote
outside of references. Text and values are told as the slice they are, when there is no `&` in it,
and as what it decodes to otherwise. So bytes that may stand in both places are told alike in both, or
refused in both. -/
theorem read_decoded (config : Config) (doc : Bytes) (h : Handler σ Event) (s : σ) :
    let seen := (read config doc h.recording ([], s)).state.1
    (∀ w v v', Decodes w v → Decodes w v' → v = v') ∧
    (∀ u v, u ++ [.characters v] <+: seen →
      (∃ source, TextRun config doc u v source ∧
        source.bytes = runAhead .openAngle false (doc.drop source.offset) ∧ Decoded source v) ∨
      ∃ source, Section config doc u v source ∧ v = .stable source) ∧
    (∀ u n v, u ++ [.attr n v] <+: seen → ∃ source, Value config doc u n v source ∧
      source.bytes = runAhead .quote false (doc.drop source.offset) ∧ Decoded source v) ∧
    ∀ r, r ≠ [] → .openAngle ∉ r → .quote ∉ r → AlikeAlone config r := by
  intro seen
  refine ⟨fun w v v' h h' => h.unique h', fun u v hu => ?_, fun u n v hu => ?_,
    fun r hne ho hq => alone_alike config hne ho hq⟩
  · obtain ⟨more, hevents⟩ := events_of_seen hu
    obtain ⟨source, htext | hsection⟩ := characters_source hevents
    · obtain ⟨rest, hdrop, hspelt⟩ := htext.spelt
      refine .inl ⟨source, htext, ?_, decoded_of_spelt hspelt⟩
      obtain ⟨hend, bytes, hrun, -⟩ := hspelt
      rw [hdrop, hrun.eq_runAhead (by decide) hend]
    · exact .inr ⟨source, hsection, hsection.stable⟩
  · obtain ⟨more, hevents⟩ := events_of_seen hu
    obtain ⟨source, hvalue⟩ := attr_source hevents
    obtain ⟨rest, hdrop, hspelt⟩ := hvalue.spelt
    refine ⟨source, hvalue, ?_, decoded_of_spelt hspelt⟩
    obtain ⟨hend, bytes, hrun, -⟩ := hspelt
    rw [hdrop, hrun.eq_runAhead (by decide) hend]

theorem decodes_each_kind : Decodes (utf8 "&lt;&#65;&nbsp;") (utf8 "<Anbsp") := by
  have hlt : Reference.StandsFor (utf8 "lt") (utf8 "<") := .named (by decide)
  have hnumber : Reference.StandsFor (utf8 "#65") (utf8 "A") :=
    Reference.standsFor_iff.2 (by decide)
  have hother : Reference.StandsFor (utf8 "nbsp") (utf8 "nbsp") :=
    Reference.standsFor_iff.2 (by decide)
  have hrest : Decodes (utf8 "&nbsp;") (utf8 "nbsp") :=
    .reference (n := utf8 "nbsp") (by decide) (by decide) hother .nil
  exact .reference (n := utf8 "lt") (by decide) (by decide) hlt
    (.reference (n := utf8 "#65") (by decide) (by decide) hnumber hrest)

/-- References of each kind, in a value and in text. -/
theorem read_decoded_reference :
    let r := utf8 "&lt;&#65;&nbsp;"
    let doc := utf8 "<a b=\"&apos;&#x41;&u;\">&lt;&#65;&nbsp;</a>"
    let seen := (read .lenient doc Handler.keeping.recording ([], [])).state.1
    let b : QName := ⟨[], utf8 "b"⟩
    let c : Span := .transient (utf8 "'Au")
    let u : List Event := [.attr b c, .startElement ⟨[], utf8 "a"⟩ ⟨0, 23⟩]
    let v : Span := .transient (utf8 "<Anbsp")
    u ++ [.characters v] <+: seen ∧ [] ++ [.attr b c] <+: seen ∧
      (∀ bytes, Decodes r bytes → bytes = v.bytes) ∧
      ((∃ source, TextRun .lenient doc u v source ∧
        source.bytes = runAhead .openAngle false (doc.drop source.offset) ∧ Decoded source v) ∨
        ∃ source, Section .lenient doc u v source ∧ v = .stable source) ∧
      (∃ source, Value .lenient doc [] b c source ∧
        source.bytes = runAhead .quote false (doc.drop source.offset) ∧ Decoded source c) ∧
      AlikeAlone .lenient r := by
  intro r doc seen b c u v
  have htext : u ++ [.characters v] <+: seen := by decide +kernel
  have hvalue : [] ++ [.attr b c] <+: seen := by decide +kernel
  obtain ⟨hunique, hcharacters, hattr, halike⟩ := read_decoded .lenient doc Handler.keeping []
  refine ⟨htext, hvalue, fun bytes hbytes => ?_, hcharacters u v htext, hattr [] b c hvalue,
    halike r (by decide) (by decide) (by decide)⟩
  exact hunique r bytes v.bytes hbytes decodes_each_kind

end XmlStream
