import XmlStream.Proofs.Header
import XmlStream.Proofs.Reader.Running
/-! Strict readings. A strict reading asks for a declaration named `xml` in front and is otherwise the
lenient one: what a lenient reading takes for one declaration of many, a strict one takes for the
first, and both go on from there alike and fail alike. -/
namespace XmlStream
open Grammar Document

variable {σ : Type}

/-- The bytes behind the first `<` of a document, where nothing stands before it but a mark of its
encoding, or blanks if the document is too short to be looked at for a mark. -/
inductive Begins : Bytes → Bytes → Prop
  | plain {rest} : Begins (.openAngle :: rest) rest
  | marked {rest} : Begins (Read.byteOrderMark ++ .openAngle :: rest) rest
  | short {w rest} : Blanks w → (w ++ Byte.openAngle :: rest).length < 4 →
      Begins (w ++ .openAngle :: rest) rest

/-- A document that is seen to begin with something else than a declaration named `xml`. A name is
seen when something follows it. -/
inductive Undeclared : Bytes → Prop
  | other {doc b rest} : Begins doc (b :: rest) → b ≠ .question → Undeclared doc
  | misnamed {doc n rest} : Begins doc (.question :: (n ++ rest)) → Name n → n ≠ utf8 "xml" →
      rest ≠ [] → Apart rest → Undeclared doc

namespace Read

abbrev lead : Read Unit := encoding >>= fun _ => skipBlank

abbrev named : Read Bytes := next >>= fun _ => name

theorem begins_iff (doc : Bytes) (rest : Bytes) : Begins doc rest ↔
    ∃ pos, lead (.atStart doc) = .ok () ⟨pos, .openAngle :: rest⟩ := by
  have hreads := reads_encoding.bind fun _ => reads_skipBlank
  have hopen : ∀ b, (Byte.openAngle :: rest).head? = some b → b.isBlank = false :=
    forall_head (by decide)
  constructor
  · intro h
    have key {u v : Bytes} (hu : Marked u (v ++ .openAngle :: rest)) (hv : Blanks v) :
        ∃ pos, lead (.atStart (u ++ v ++ .openAngle :: rest)) =
          .ok () ⟨pos, .openAngle :: rest⟩ :=
      ⟨_, (hreads _ _ _).2 ⟨u ++ v, _, rfl, rfl, u, (), v, rfl, hu, hv, hopen⟩⟩
    cases h with
    | plain => exact key (u := []) (v := []) (.inl ⟨rfl, .inr rfl⟩) (List.forall_mem_nil _)
    | marked => exact key (v := []) (.inr ⟨rfl, rfl⟩) (List.forall_mem_nil _)
    | short hw hl => exact key (u := []) (.inl ⟨rfl, .inl hl⟩) hw
  · rintro ⟨pos, h⟩
    obtain ⟨_, _, hd, he, u, _, v, rfl, hu, hv, -⟩ := (hreads _ _ _).1 h
    obtain ⟨-, rfl⟩ := Cursor.mk.inj he
    obtain rfl : doc = u ++ v ++ .openAngle :: rest := hd
    -- no blanks stand before a `<` that comes first
    have hnone (hhead : (v ++ .openAngle :: rest).head? = some .openAngle) : v = [] := by
      cases v with
      | nil => rfl
      | cons b v =>
        obtain rfl : b = .openAngle := by simpa using hhead
        exact absurd (hv _ List.mem_cons_self) (by decide)
    obtain ⟨rfl, hshort | hhead⟩ | ⟨rfl, hhead⟩ := hu
    · exact .short hv hshort
    · obtain rfl := hnone hhead
      exact .plain
    · obtain rfl := hnone hhead
      rw [List.append_nil]
      exact .marked

variable {config : Config} {c c' : Cursor} {pos : Nat} {rest : Bytes}

theorem header_of_error {cause : Cause}
    (h : lead c = .error cause c') :
    header config c = .error cause c' := by
  rw [header, ← bind_assoc]
  exact bind_error h

theorem header_of_other {text : Bytes}
    (h : lead c = .ok () ⟨pos, text⟩)
    (ht : text.head? ≠ some .openAngle) :
    header config c = .error .noOpeningAngle ⟨pos, text⟩ := by
  rw [header, ← bind_assoc, bind_ok h]
  have : (⟨pos, text⟩ : Cursor).peek? ≠ some .openAngle := ht
  rw [bind_ok (r := peek?) rfl, if_neg this]
  rfl

theorem header_lenient (h : lead c = .ok () ⟨pos, .openAngle :: rest⟩) :
    header .lenient c = .ok ⟨[], some ⟨0, .content⟩⟩ ⟨pos, .openAngle :: rest⟩ := by
  rw [header, ← bind_assoc, bind_ok h]
  rfl

theorem header_strict (h : lead c = .ok () ⟨pos, .openAngle :: rest⟩) :
    header .strictDeclaration c = (next >>= fun b =>
      if b = .question then openDeclaration 0 (some (utf8 "xml")) else throw .noDeclaration)
        ⟨pos, .openAngle :: rest⟩ := by
  rw [header, ← bind_assoc, bind_ok h]
  rfl

/-! The name of a declaration is all that is asked of it. -/

theorem named_iff {b : Byte} {text n : Bytes} :
    (∃ c', named ⟨pos, b :: text⟩ = .ok n c') ↔
      ∃ rest, text = n ++ rest ∧ Name n ∧ rest ≠ [] ∧ Apart rest := by
  have hreads := Reads.next fun _ => reads_name
  constructor
  · rintro ⟨c', h⟩
    obtain ⟨_, rest, hd, -, x, _, y, rfl, -, rfl, hn, he, ha⟩ := (hreads _ _ _).1 h
    exact ⟨rest, (List.cons.inj hd).2, hn, he, ha⟩
  · rintro ⟨rest, rfl, hn, he, ha⟩
    obtain ⟨y, r, hy, -⟩ := id hn
    have hhead : (n ++ rest).head? = some y := by rw [hy]; rfl
    exact ⟨_, (hreads _ _ _).2 ⟨b :: n, rest, rfl, rfl, b, n, y, rfl, hhead, rfl, hn, he, ha⟩⟩

theorem openDeclaration_of_error {depth : Nat} {expected : Option Bytes} {cause : Cause}
    (h : named c = .error cause c') :
    openDeclaration depth expected c = .error cause c' := by
  rw [openDeclaration, ← bind_assoc]
  exact bind_error h

theorem openDeclaration_of_ok {depth : Nat} {expected : Option Bytes} {found : Bytes}
    (h : named c = .ok found c') :
    openDeclaration depth expected c = (expectName expected found >>= fun _ =>
      emit (.startDeclaration found) >>= fun e => goOn [e] depth (.declaration found)) c' := by
  rw [openDeclaration, ← bind_assoc]
  exact bind_ok h

/-- To ask for a name makes no difference unless another one is read. -/
theorem openDeclaration_expected {depth : Nat} {wanted : Bytes}
    (h : ∀ found c', named c = .ok found c' → found = wanted) :
    openDeclaration depth (some wanted) c = openDeclaration depth none c := by
  cases hn : named c with
  | error cause c' => rw [openDeclaration_of_error hn, openDeclaration_of_error hn]
  | ok found c' =>
    have hexpect : expectName (some wanted) found = expectName none found := if_pos (h found c' hn)
    rw [openDeclaration_of_ok hn, openDeclaration_of_ok hn, hexpect]

theorem openDeclaration_misnamed {depth : Nat} {wanted found : Bytes}
    (h : named c = .ok found c') (hne : found ≠ wanted) :
    openDeclaration depth (some wanted) c = .error (.declarationName wanted found) c' := by
  have hexpect : expectName (some wanted) found = throw (.declarationName wanted found) :=
    if_neg hne
  rw [openDeclaration_of_ok h, hexpect]
  rfl

theorem header_undeclared {doc : Bytes} (hd : Undeclared doc) :
    ∃ cause c, header .strictDeclaration (.atStart doc) = .error cause c := by
  cases hd with
  | @other b rest hbegins hb =>
    obtain ⟨pos, h⟩ := (begins_iff ..).1 hbegins
    refine ⟨.noDeclaration, ⟨pos + 1, b :: rest⟩, ?_⟩
    rw [header_strict h, bind_ok (r := next) (a := b) (m := ⟨pos + 1, b :: rest⟩) rfl, if_neg hb]
    rfl
  | @misnamed n rest hbegins hn hne he ha =>
    obtain ⟨pos, h⟩ := (begins_iff ..).1 hbegins
    obtain ⟨c', hnamed⟩ := named_iff.2 ⟨rest, rfl, hn, he, ha⟩
    refine ⟨.declarationName (utf8 "xml") n, c', ?_⟩
    rw [header_strict h, bind_ok (r := next) rfl, if_pos rfl]
    exact openDeclaration_misnamed hnamed hne

end Read

namespace Document

variable {doc rest : Bytes} {pos : Nat}

/-- Before a `<` with no element open, a declaration is what a lenient reading finds. -/
theorem after_markup (h : Handler σ Event) (s : σ)
    (hd : ¬ Undeclared doc) (hbegins : Begins doc rest) :
    after h s ((Read.next >>= fun b => if b = .question
      then Read.openDeclaration 0 (some (utf8 "xml")) else throw .noDeclaration)
        ⟨pos, .openAngle :: rest⟩) =
      after h s (Read.markup 0 ⟨pos, .openAngle :: rest⟩) := by
  cases rest with
  | nil => rfl
  | cons b rest =>
    obtain rfl : b = .question := by
      by_cases hb : b = .question
      · exact hb
      · exact (hd (.other hbegins hb)).elim
    have hnamed : ∀ found c', Read.named ⟨pos + 1, .question :: rest⟩ =
        .ok found c' → found = utf8 "xml" := by
      intro found c' h
      obtain ⟨rest, rfl, hn, he, ha⟩ := Read.named_iff.1 ⟨c', h⟩
      by_cases hne : found = utf8 "xml"
      · exact hne
      · exact (hd (.misnamed hbegins hn hne he ha)).elim
    exact congrArg (after h s) (Read.openDeclaration_expected hnamed)

theorem read_strict_eq (h : Handler σ Event) (s : σ) (hd : ¬ Undeclared doc) :
    read .strictDeclaration doc h s = read .lenient doc h s := by
  rw [read_eq_after, read_eq_after]
  cases hb : Read.lead (.atStart doc) with
  | error cause c => rw [Read.header_of_error hb, Read.header_of_error hb]
  | ok u c =>
    obtain ⟨pos, text⟩ := c
    by_cases ht : text.head? = some .openAngle
    · obtain ⟨rest, rfl⟩ := List.head?_eq_some_iff.1 ht
      have hbegins : Begins doc rest := (Read.begins_iff doc rest).2 ⟨pos, hb⟩
      rw [Read.header_strict hb, Read.header_lenient hb, after_place, after_markup h s hd hbegins]
      rfl
    · rw [Read.header_of_other hb ht, Read.header_of_other hb ht]

theorem read_strict_undeclared (h : Handler σ Event) (s : σ) (hd : Undeclared doc) :
    ∃ cause offset, read .strictDeclaration doc h s =
      ⟨s, some (.malformed cause (some offset)), offset⟩ := by
  obtain ⟨cause, c, hc⟩ := Read.header_undeclared hd
  exact ⟨cause, c.pos, by rw [read_eq_after, hc]; rfl⟩

end Document

open Document (read)

def Reader.seen (run : Option (Except Error Unit × Reader × σ)) :
    Option (Except Error Unit × σ × Nat) :=
  run.map fun (answer, r, s) => (answer, s, r.position)

theorem Reader.seen_parse (config : Config) (doc : Bytes) (h : Handler σ Event) (s : σ)
    (leftover : Reader) :
    let reading := read config doc h s
    seen (parse doc h config (leftover, s)) =
      some (outcome reading.error, reading.state, reading.position) := by
  intro reading
  obtain ⟨r, hparse, hposition, -⟩ := parse_eq config doc h s leftover
  rw [hparse, ← hposition]
  rfl

/-- To read strictly only refuses documents. Where a document is seen to begin with something else
than a declaration named `xml`, nothing is handed over and the document is malformed; of any other
document a strict run shows what a lenient one does: the same answer, a handler that has come to the
same, the same offset. -/
theorem readings_strict (doc : Bytes) (h : Handler σ Event) (s : σ) (leftover : Reader) :
    let strict := Reader.parse doc h .strictDeclaration (leftover, s)
    let lenient := Reader.parse doc h .lenient (leftover, s)
    (¬ Undeclared doc → read .strictDeclaration doc h s = read .lenient doc h s ∧
      Reader.seen strict = Reader.seen lenient) ∧
    (Undeclared doc → ∃ cause offset,
      read .strictDeclaration doc h s = ⟨s, some (.malformed cause (some offset)), offset⟩ ∧
      Reader.seen strict = some (.error (.malformed cause (some offset)), s, offset)) := by
  intro strict lenient
  have hstrict : Reader.seen strict = _ := Reader.seen_parse .strictDeclaration doc h s leftover
  have hlenient : Reader.seen lenient = _ := Reader.seen_parse .lenient doc h s leftover
  refine ⟨fun hd => ?_, fun hd => ?_⟩
  · have hread := Document.read_strict_eq h s hd
    exact ⟨hread, by rw [hstrict, hlenient, hread]⟩
  · obtain ⟨cause, offset, hread⟩ := Document.read_strict_undeclared h s hd
    exact ⟨cause, offset, hread, by rw [hstrict, hread]; rfl⟩

/-- A document with its declaration, malformed behind it, and one whose declaration has a name that
only begins like the one asked for. -/
theorem readings_strict_named :
    let declared := utf8 "<?xml v=\"1\"?> text <a b"
    let misnamed := utf8 "<?xmlx?><a/>"
    let seen doc config :=
      Reader.seen (Reader.parse doc Handler.keeping config (({} : Reader), []))
    ¬ Undeclared declared ∧ Undeclared misnamed ∧
      seen declared .strictDeclaration = seen declared .lenient ∧
      ∃ cause offset, seen misnamed .strictDeclaration =
        some (.error (.malformed cause (some offset)), [], offset) := by
  intro declared misnamed seen
  have hdeclared : ¬ Undeclared declared := by
    intro hd
    obtain ⟨cause, offset, hread⟩ :=
      Document.read_strict_undeclared (Handler.keeping (α := Event)) [] hd
    have hstate : (read .strictDeclaration declared Handler.keeping []).state ≠ [] := by
      decide +kernel
    exact hstate (congrArg Ending.state hread)
  have hmisnamed : Undeclared misnamed := by
    have hname : Name (utf8 "xmlx") := by
      refine ⟨120, [109, 108, 120], by decide, by decide, ?_⟩
      rw [List.forall_mem_cons, List.forall_mem_cons, List.forall_mem_singleton]
      decide
    have hbegins : Begins misnamed (.question :: (utf8 "xmlx" ++ utf8 "?><a/>")) := by
      have heq : misnamed = .openAngle :: .question :: (utf8 "xmlx" ++ utf8 "?><a/>") := by
        decide +kernel
      rw [heq]
      exact .plain
    exact .misnamed hbegins hname (by decide) (by decide) (Read.forall_head (by decide))
  obtain ⟨hequal, -⟩ := readings_strict declared Handler.keeping [] {}
  obtain ⟨-, hrefused⟩ := readings_strict misnamed Handler.keeping [] {}
  obtain ⟨cause, offset, -, hseen⟩ := hrefused hmisnamed
  exact ⟨hdeclared, hmisnamed, (hequal hdeclared).2, cause, offset, hseen⟩

end XmlStream
