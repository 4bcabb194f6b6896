import XmlStream.Proofs.Handing
import XmlStream.Proofs.Reader.Scanning
/-! Running. Work on a reader comes to the ending that reading on from its place comes to: what it
hands over brings the handler there, it fails with the ending's error, and it never goes wrong. -/
namespace XmlStream

namespace Document

variable {σ : Type} {h : Handler σ Event} {s s' : σ} {c : Cursor} {place : Option Place}

def after (h : Handler σ Event) (s : σ) : EStateM.Result Cause Cursor Progress → Ending σ
  | .ok p c => readOn h s p c
  | .error cause c => ⟨s, some (.malformed cause (some c.pos)), c.pos⟩

theorem read_eq_after (config : Config) (doc : Bytes) (h : Handler σ Event) (s : σ) :
    read config doc h s = after h s (Read.header config (.atStart doc)) := by
  rw [read]
  cases Read.header config (.atStart doc) <;> rfl

theorem after_place (h : Handler σ Event) (s : σ) (place : Place) (c : Cursor) :
    after h s (.ok ⟨[], some place⟩ c) = after h s (Read.step place c) := by
  rw [after, readOn_eq]
  cases hs : Read.step place c with
  | ok p c' =>
    rw [traceOn_ok rfl hs, after, readOn_eq]
    rfl
  | error cause c' =>
    rw [traceOn_error rfl hs]
    rfl

theorem after_none (h : Handler σ Event) (s : σ) (c : Cursor) :
    after h s (.ok ⟨[], none⟩ c) = ⟨s, none, c.pos⟩ := by
  rw [after, readOn_eq, traceOn_none rfl]
  rfl

/-- An event that is handed over leaves the others of its step. -/
theorem after_cons {e : Emission} (he : h s e.event = (s', none)) (more : List Emission) :
    after h s (.ok ⟨e :: more, place⟩ c) = after h s' (.ok ⟨more, place⟩ c) := by
  rw [after, after, readOn_eq, readOn_eq, traceOn_emissions, traceOn_emissions ⟨more, place⟩,
    handOver_prepend, handOver_prepend]
  simp only [handOver, he]

theorem after_cons_error {e : Emission} {error : Error} (he : h s e.event = (s', some error))
    (more : List Emission) :
    after h s (.ok ⟨e :: more, place⟩ c) = ⟨s', some error, e.position⟩ := by
  rw [after, readOn_eq, traceOn_emissions, handOver_prepend]
  simp only [handOver, he]

end Document

namespace Reader

open Cursor (seek)
open Document (after)

variable {σ α β : Type} {doc : Bytes} {h : Handler σ Event} {E : Ending σ} {x : Reader × σ}

/-- Work that comes to an ending. If it fails then the ending is there, and what it answers and
leaves is as wanted. -/
def Leads (doc : Bytes) (E : Ending σ) (m : Work σ α) (x : Reader × σ)
    (wanted : α → Reader × σ → Prop) : Prop :=
  match m x with
  | none => False
  | some (.error e, y) => E = ⟨y.2, some e, y.1.position⟩ ∧ y.1.position ≤ doc.length
  | some (.ok a, y) => wanted a y

variable {m : Work σ α} {f : α → Work σ β} {wanted : β → Reader × σ → Prop}

theorem Leads.of_ok {P : α → Reader × σ → Prop} {a : α} {y : Reader × σ}
    (hm : m x = some (.ok a, y)) (hP : P a y) : Leads doc E m x P := by
  rw [Leads, hm]
  exact hP

theorem Leads.bind {P : α → Reader × σ → Prop} (hm : Leads doc E m x P)
    (hf : ∀ a y, P a y → Leads doc E (f a) y wanted) : Leads doc E (m >>= f) x wanted := by
  rw [Leads] at hm
  split at hm
  · exact hm.elim
  · rename_i e y hy
    rw [Leads, run_bind_error hy]
    exact hm
  · rename_i a y hy
    rw [Leads, run_bind_ok hy]
    exact hf a y hm

theorem Leads.mono {P Q : α → Reader × σ → Prop} (hm : Leads doc E m x P)
    (hPQ : ∀ a y, P a y → Q a y) : Leads doc E m x Q := by
  rw [Leads] at hm ⊢
  split at hm
  · exact hm
  · exact hm
  · exact hPQ _ _ hm

/-- A part that answers and leaves the reader for what follows. -/
theorem Leads.next {a : α} {y : Reader × σ} (hm : m x = some (.ok a, y))
    (hf : Leads doc E (f a) y wanted) : Leads doc E (m >>= f) x wanted := by
  rwa [Leads, run_bind_ok hm]

theorem Leads.ite {p : Prop} [Decidable p] {m' : Work σ α} {P : α → Reader × σ → Prop}
    (hm : p → Leads doc E m x P) (hm' : ¬ p → Leads doc E m' x P) :
    Leads doc E (if p then m else m') x P := by
  split
  · exact hm (by assumption)
  · exact hm' (by assumption)

def left (doc : Bytes) (x : Reader × σ) : Nat := (seek doc x.1.position).rest.length

/-- A loop ends in time if each round that is not the last takes something of the document. -/
theorem Leads.loop {round : Work σ Bool} {invariant wanted : Reader × σ → Prop}
    (hround : ∀ x, invariant x → Leads doc E round x fun again y =>
      if again then invariant y ∧ left doc y < left doc x else wanted y)
    (hx : invariant x) : Leads doc E (Reader.loop doc round) x fun _ y => wanted y := by
  have key (n : Nat) (x : Reader × σ) (hx : invariant x) (hn : left doc x < n) :
      Leads doc E (rounds round n) x fun _ y => wanted y := by
    induction n generalizing x with
    | zero => omega
    | succ n ih =>
      refine (hround x hx).bind fun again y hy => ?_
      cases again with
      | false => exact .of_ok rfl hy
      | true => exact ih y hy.1 (by have := hy.2; omega)
  refine key _ x hx ?_
  rw [left, seek, List.length_drop]
  omega

/-- The reader is where a read begins that comes to the ending; it has come from an offset. -/
structure Before (doc : Bytes) (h : Handler σ Event) (E : Ending σ) (depth start : Nat)
    (r : Read Progress) (x : Reader × σ) : Prop where
  depth_eq : x.1.depth = depth
  rootOpen : x.1.rootOpen = true
  passed : start ≤ x.1.position
  within : x.1.position ≤ doc.length
  ending : after h x.2 (r (seek doc x.1.position)) = E

variable {depth start : Nat}

theorem Before.scan {r : Read α} {g : α → Read Progress}
    (hx : Before doc h E depth start (r >>= g) x) (hm : Agrees doc m r x.1.position) :
    Leads doc E m x fun a y => Before doc h E depth start (g a) y ∧
      r (seek doc x.1.position) = .ok a (seek doc y.1.position) := by
  obtain ⟨hdepth, hroot, hpassed, hwithin, hending⟩ := hx
  obtain ⟨hseeks, hpassed', hwithin', hworks⟩ := hm
  obtain ⟨scratch, hmx⟩ := hworks x rfl
  rw [read_bind] at hending
  rw [Leads, hmx]
  rcases hr : r (seek doc x.1.position) with ⟨a, c⟩ | ⟨cause, c⟩ <;>
    rw [hr] at hseeks hpassed' hwithin' hending
  · have hc : c = seek doc c.pos := hseeks
    exact ⟨⟨hdepth, hroot, Nat.le_trans hpassed hpassed', hwithin', by rwa [hc] at hending⟩,
      congrArg _ hc⟩
  · exact ⟨hending.symm, hwithin'⟩

theorem Before.bind {r : Read α} {g : α → Read Progress}
    (hx : Before doc h E depth start (r >>= g) x) (hm : Agrees doc m r x.1.position)
    (hf : ∀ a y, Before doc h E depth start (g a) y →
      r (seek doc x.1.position) = .ok a (seek doc y.1.position) → Leads doc E (f a) y wanted) :
    Leads doc E (m >>= f) x wanted :=
  (hx.scan hm).bind fun a y hy => hf a y hy.1 hy.2

/-- What a read answers that passes nothing. -/
theorem Before.answered {r : Read α} {a : α} {g : α → Read Progress}
    (hx : Before doc h E depth start (r >>= g) x)
    (hr : r (seek doc x.1.position) = .ok a (seek doc x.1.position)) :
    Before doc h E depth start (g a) x := by
  obtain ⟨hdepth, hroot, hpassed, hwithin, hending⟩ := hx
  simp only [Bind.bind, EStateM.bind, hr] at hending
  exact ⟨hdepth, hroot, hpassed, hwithin, hending⟩

theorem Before.fail {cause : Cause} {P : α → Reader × σ → Prop}
    (hx : Before doc h E depth start (throw cause) x) : Leads doc E (Reader.fail cause) x P :=
  ⟨hx.ending.symm, hx.within⟩

theorem Before.ite {p : Prop} [Decidable p] {m' : Work σ α} {r r' : Read Progress}
    {P : α → Reader × σ → Prop} (hx : Before doc h E depth start (if p then r else r') x)
    (hm : p → Before doc h E depth start r x → Leads doc E m x P)
    (hm' : ¬ p → Before doc h E depth start r' x → Leads doc E m' x P) :
    Leads doc E (if p then m else m') x P := by
  by_cases hp : p
  · rw [if_pos hp] at hx ⊢
    exact hm hp hx
  · rw [if_neg hp] at hx ⊢
    exact hm' hp hx

/-- So many bytes have to be left. -/
theorem Before.require {n : Nat} {cause : Cause} {g : Unit → Read Progress} {m' : Work σ α}
    {P : α → Reader × σ → Prop} (hx : Before doc h E depth start (Read.require n cause >>= g) x)
    (hm : Before doc h E depth start (g ()) x → x.1.position + n ≤ doc.length →
      Leads doc E m' x P) :
    Leads doc E (look doc Cursor.remains >>= fun left =>
      if left < n then Reader.fail cause else m') x P := by
  have hhas := has_seek doc x.1.position n
  obtain ⟨hdepth, hroot, hpassed, hwithin, hending⟩ := hx
  simp only [Bind.bind, EStateM.bind, Read.require] at hending
  refine .next (m := look doc Cursor.remains) rfl (.ite (fun hshort => ?_) fun hlong => ?_)
  · rw [if_neg (mt hhas.1 (not_not_intro hshort))] at hending
    exact ⟨hending.symm, hwithin⟩
  · rw [if_pos (hhas.2 hlong)] at hending
    refine hm ⟨hdepth, hroot, hpassed, hwithin, hending⟩ ?_
    rw [Cursor.remains, seek, List.length_drop] at hlong
    omega

/-! Handing over, and where it leaves the reader. -/

abbrev Done (doc : Bytes) (h : Handler σ Event) (E : Ending σ) (depth start : Nat)
    (emissions : List Emission) (place : Option Place) (c : Cursor) (x : Reader × σ) : Prop :=
  Before doc h E depth start (fun _ => .ok ⟨emissions, place⟩ c) x

theorem Before.done {r : Read Progress} {es : List Emission} {place : Option Place} {c : Cursor}
    (hx : Before doc h E depth start r x)
    (hr : r (seek doc x.1.position) = .ok ⟨es, place⟩ c) : Done doc h E depth start es place c x :=
  ⟨hx.depth_eq, hx.rootOpen, hx.passed, hx.within, hr ▸ hx.ending⟩

theorem Done.tell {event : Event} {more : List Emission} {place : Option Place} {c : Cursor}
    (hx : Done doc h E depth start (⟨event, x.1.position⟩ :: more) place c x) :
    Leads doc E (Reader.tell h event) x fun _ y =>
      y.1.position = x.1.position ∧ Done doc h E depth start more place c y := by
  have hE := hx.ending
  rcases hs : h x.2 event with ⟨s, _ | error⟩
  · rw [Document.after_cons (e := ⟨event, _⟩) hs] at hE
    exact .of_ok (a := ()) (y := (x.1, s)) (by simp only [Reader.tell, hs])
      ⟨rfl, hx.depth_eq, hx.rootOpen, hx.passed, hx.within, hE⟩
  · rw [Document.after_cons_error (e := ⟨event, _⟩) hs] at hE
    rw [Leads, show Reader.tell h event x = some (.error error, (x.1, s)) by
      simp only [Reader.tell, hs]]
    exact ⟨hE.symm, hx.within⟩

/-- The reader goes on from the place of the step. -/
theorem Done.place {place : Place} {pos : Nat} {x : Reader × σ}
    (hx : Done doc h E depth start [] (some place) (seek doc pos) x) (hpos : x.1.position = pos) :
    Before doc h E depth start (Read.step place) x := by
  subst hpos
  exact ⟨hx.depth_eq, hx.rootOpen, hx.passed, hx.within,
    (Document.after_place ..).symm.trans hx.ending⟩

def Onward (doc : Bytes) (h : Handler σ Event) (E : Ending σ) (start : Nat)
    (x : Reader × σ) : Prop :=
  Before doc h E x.1.depth start (Read.content x.1.depth) x ∨
    x.1.rootOpen = false ∧ x.1.depth = 0 ∧ x.1.position ≤ doc.length ∧
      E = ⟨x.2, none, x.1.position⟩

theorem Done.close {pos : Nat}
    (hx : Done doc h E depth start [] (if depth = 0 then none else some ⟨depth, .content⟩)
      (seek doc pos) x) (hpos : x.1.position = pos) :
    Leads doc E Reader.close x fun _ y => Onward doc h E start y := by
  obtain rfl := hx.depth_eq
  refine .of_ok (run_update _) ?_
  by_cases hdepth : x.1.depth = 0
  · have hE := hx.ending
    rw [if_pos hdepth, Document.after_none] at hE
    rw [if_pos hdepth]
    exact .inr ⟨rfl, hdepth, hx.within, by rw [← hE, ← hpos]; rfl⟩
  · rw [if_neg hdepth] at hx ⊢
    exact .inl (hx.place hpos)

/-- What is handed over of a step that leads to a place. -/
theorem Before.tell {event : Event} {d : Nat} {phase : Phase}
    (hx : Before doc h E depth start (do let e ← Read.emit event; Read.goOn [e] d phase) x) :
    Leads doc E (Reader.tell h event) x fun _ y => y.1.position = x.1.position ∧
      Before doc h E depth start (Read.step ⟨d, phase⟩) y :=
  (hx.done rfl).tell.mono fun _ _ hy => ⟨hy.1, hy.2.place hy.1⟩

theorem Before.place {d : Nat} {phase : Phase}
    (hx : Before doc h E depth start (Read.goOn [] d phase) x) :
    Before doc h E depth start (Read.step ⟨d, phase⟩) x :=
  (hx.done rfl).place rfl

theorem Before.onward (hx : Before doc h E depth start (Read.content depth) x) :
    Onward doc h E start x :=
  .inl (hx.depth_eq ▸ hx)

/-! The constructs. -/

theorem leads_cdata (hx : Before doc h E depth start (do
      let body ← Read.cdata
      if depth = 0 then Read.goOn [] depth .content
      else
        let e ← Read.emit (.characters (.stable body))
        Read.goOn [e] depth .content) x) :
    Leads doc E (cdata doc h) x fun _ y => Onward doc h E start y := by
  obtain ⟨hdepth, hroot, hpassed, hwithin, hending⟩ := hx
  refine .next (m := here) rfl (.next (m := look doc _) rfl ?_)
  simp only [Bind.bind, EStateM.bind, Read.cdata] at hending
  dsimp only [Cursor.findText?]
  cases hfound : Cursor.occurrence? (utf8 "]]>") 0 (seek doc x.1.position).rest with
  | none =>
    rw [hfound] at hending
    exact ⟨hending.symm, hwithin⟩
  | some n =>
    have hbound : x.1.position + n + 3 ≤ doc.length := by
      have := (Cursor.occurrence?_bound hfound).2
      have hlength : (utf8 "]]>").length = 3 := rfl
      rw [seek, List.length_drop] at this
      omega
    have hlength : ((seek doc x.1.position).rest.take n).length = n := by
      rw [seek, List.length_take, List.length_drop]
      omega
    rw [hfound] at hending
    dsimp only [Option.map_some, Cursor.pos_seek] at hending ⊢
    let y : Reader × σ := ({ x.1 with position := x.1.position + n + 3 }, x.2)
    refine .next (y := y) (run_moveTo (by omega)) (.next (m := reader) rfl ?_)
    rw [Cursor.advance_seek, ← Nat.add_assoc] at hending
    have hy (r : Read Progress) (hr : after h y.2 (r (seek doc y.1.position)) = E) :
        Before doc h E x.1.depth start r y :=
      ⟨rfl, hroot, by simp only [y]; omega, hbound, hr⟩
    subst hdepth
    refine .ite (fun h0 => ?_) fun h0 => ?_
    · rw [if_pos (show x.1.depth = 0 from h0)] at hending
      exact .of_ok rfl (hy _ hending).place.onward
    · rw [if_neg (show ¬ x.1.depth = 0 from h0)] at hending
      have hslice := run_slice_passed (x := y) (List.take_append_drop n _).symm hwithin
      rw [hlength] at hslice
      have hy := hy (do
        let e ← Read.emit (.characters (.stable ⟨x.1.position, _⟩))
        Read.goOn [e] x.1.depth .content) hending
      exact .next hslice (hy.tell.mono fun _ _ hz => hz.2.onward)

theorem leads_special (hx : Before doc h E depth start (Read.special depth) x) :
    Leads doc E (special doc h) x fun _ y => Onward doc h E start y := by
  refine hx.require fun hx hlong => hx.bind (agrees_next (by omega)) fun b y hy hb => ?_
  have hlt := lt_of_next hb
  refine hy.ite (fun _ hy => ?_) fun _ hy => hy.ite (fun _ hy => ?_) fun _ hy =>
    hy.ite (fun _ hy => ?_) fun _ hy => hy.fail
  · refine hy.bind (agrees_next hlt) fun _ y hy hb => hy.ite (fun _ hy => ?_) fun _ hy => hy.fail
    refine hy.bind (agrees_pass (lt_of_next hb)) fun _ y hy _ => hy.require fun hy _ => ?_
    exact (hy.scan (agrees_comment hy.within)).mono fun _ _ hy => hy.1.place.onward
  · exact hy.bind (agrees_expectNext hy.within _) fun _ y hy _ => leads_cdata hy
  · refine hy.bind (agrees_expectNext hy.within _) fun _ y hy _ => ?_
    refine hy.bind (agrees_skipBlank hy.within) fun _ y hy _ => ?_
    refine hy.bind (agrees_doctype hy.within) fun _ y hy _ => ?_
    exact hy.tell.mono fun _ _ hy => hy.2.onward

theorem leads_tellAttr {phase : Phase} (hx : Before doc h E depth start (do
      let a ← Read.attr
      let e ← Read.emit (.attr a.1 a.2)
      Read.goOn [e] depth phase) x) :
    Leads doc E (tellAttr doc h) x fun _ y =>
      Before doc h E depth start (Read.step ⟨depth, phase⟩) y ∧ left doc y < left doc x := by
  refine hx.bind (agrees_attr hx.within) fun a y hy ha => hy.tell.mono fun _ z hz => ⟨hz.2, ?_⟩
  rw [left, hz.1]
  exact Read.strict_attr.2 _ _ _ ha

/-- A round is the last, or an attribute has been taken. -/
theorem leads_declarationRound {name : Bytes}
    (hx : Before doc h E depth start (Read.declaration depth name) x) :
    Leads doc E (declarationRound doc h name) x fun again y =>
      if again then Before doc h E depth start (Read.declaration depth name) y ∧
        left doc y < left doc x
      else Before doc h E depth start (Read.content depth) y := by
  refine hx.bind (agrees_skipBlank hx.within) fun _ y hy hblank => ?_
  refine hy.bind (agrees_current hy.within) fun b z hz hb => hz.ite (fun _ hz => ?_) fun _ hz => ?_
  · refine hz.bind (agrees_next (lt_of_current hb)) fun b y hy hb => ?_
    refine hy.ite (fun _ hy => ?_) fun _ hy => hy.fail
    have hlt := lt_of_next hb
    have hdone : (do
          let e ← Read.emit (.endDeclaration name)
          Read.pass
          Read.goOn [e] depth .content : Read Progress) (seek doc y.1.position) =
        .ok ⟨[⟨.endDeclaration name, y.1.position⟩], some ⟨depth, .content⟩⟩
          (seek doc (y.1.position + 1)) := by
      simp only [Bind.bind, EStateM.bind, Read.emit, pass_seek hlt]
      rfl
    refine (hy.done hdone).tell.bind fun _ z hz => ?_
    obtain ⟨hpos, hz⟩ := hz
    let w : Reader × σ := ({ z.1 with position := z.1.position + 1 }, z.2)
    have hw : Done doc h E depth start [] (some ⟨depth, .content⟩) (seek doc (y.1.position + 1)) w :=
      ⟨hz.depth_eq, hz.rootOpen, Nat.le_succ_of_le hz.passed, by simp only [w]; omega, hz.ending⟩
    exact .next (run_advance 1) (.of_ok rfl (hw.place (congrArg (· + 1) hpos)))
  · refine (leads_tellAttr hz).bind fun _ w hw => .of_ok rfl ⟨hw.1, ?_⟩
    have hless := hw.2
    have hblank := Read.forward_skipBlank.length_le hblank
    have hcurrent := Read.forward_current.length_le hb
    simp only [left] at hless ⊢
    omega

theorem leads_declaration {expected : Option Bytes} (hlt : x.1.position < doc.length)
    (hx : Before doc h E depth start (Read.openDeclaration depth expected) x) :
    Leads doc E (declaration doc h expected) x fun _ y =>
      Before doc h E depth start (Read.content depth) y := by
  refine hx.bind (agrees_next hlt) fun _ y hy _ => ?_
  refine hy.bind (agrees_name hy.within) fun found y hy _ => ?_
  refine hy.bind (agrees_expectName hy.within _ _) fun _ y hy _ => ?_
  exact hy.tell.bind fun _ z hz => .loop (fun _ => leads_declarationRound) hz.2

theorem leads_openRound {begin : Nat} {name : QName}
    (hx : Before doc h E depth start (Read.tag depth begin name) x) :
    Leads doc E (openRound doc h begin name) x fun again y =>
      if again then Before doc h E depth start (Read.tag depth begin name) y ∧
        left doc y < left doc x
      else Onward doc h E start y := by
  refine hx.bind (agrees_skipBlank hx.within) fun _ y hy hblank => ?_
  refine hy.bind (agrees_current hy.within) fun b z hz hb => hz.ite (fun _ hz => ?_) fun _ hz =>
    hz.ite (fun _ hz => ?_) fun _ hz => ?_
  · refine hz.bind (agrees_next (lt_of_current hb)) fun b y hy hb => ?_
    refine hy.ite (fun _ hy => ?_) fun _ hy => hy.fail
    refine hy.bind (agrees_pass (lt_of_next hb)) fun _ y hy _ => ?_
    refine hy.bind (Agrees.here hy.within) fun stop y hy _ => ?_
    refine (hy.done rfl).tell.bind fun _ z hz => ?_
    obtain ⟨hpos, hz⟩ := hz
    dsimp only [Cursor.pos_seek] at hz
    rw [← hpos] at hz
    refine hz.tell.bind fun _ w hw => ?_
    exact (hw.2.close hw.1).bind fun _ _ hz => .of_ok rfl hz
  · refine hz.bind (agrees_pass (lt_of_current hb)) fun _ y hy _ => ?_
    refine hy.bind (Agrees.here hy.within) fun stop y hy _ => ?_
    let z : Reader × σ := ({ y.1 with depth := y.1.depth + 1 }, y.2)
    have hz : Before doc h E (depth + 1) start (do
        let e ← Read.emit (.startElement name ⟨begin, stop⟩)
        Read.goOn [e] (depth + 1) .content) z :=
      ⟨congrArg (· + 1) hy.depth_eq, hy.rootOpen, hy.passed, hy.within, hy.ending⟩
    exact .next (y := z) (run_update _) (hz.tell.bind fun _ _ hw => .of_ok rfl hw.2.onward)
  · refine (leads_tellAttr hz).bind fun _ w hw => .of_ok rfl ⟨hw.1, ?_⟩
    have hless := hw.2
    have hblank := Read.forward_skipBlank.length_le hblank
    have hcurrent := Read.forward_current.length_le hb
    simp only [left] at hless ⊢
    omega

theorem leads_openElement {begin : Nat}
    (hx : Before doc h E depth start (Read.openTag depth begin) x) :
    Leads doc E (openElement doc h begin) x fun _ y => Onward doc h E start y := by
  refine hx.bind (agrees_qname hx.within) fun name y hy _ => ?_
  exact .loop (fun _ => leads_openRound) hy.place

theorem leads_closeElement {begin : Nat} (hlt : x.1.position < doc.length)
    (hx : Before doc h E depth start (Read.closeTag depth begin) x) :
    Leads doc E (closeElement doc h begin) x fun _ y => Onward doc h E start y := by
  refine .next (m := reader) rfl ?_
  cases depth with
  | zero => exact (if_pos hx.depth_eq).symm ▸ ⟨hx.ending.symm, hx.within⟩
  | succ depth =>
    obtain ⟨hdepth, hroot, hpassed, hwithin, hending⟩ := hx.answered (a := depth) rfl
    let y : Reader × σ := ({ x.1 with depth := x.1.depth - 1 }, x.2)
    have hy : Before doc h E depth start _ y :=
      ⟨Nat.sub_eq_of_eq_add hdepth, hroot, hpassed, hwithin, hending⟩
    rw [if_neg (by omega)]
    refine .next (y := y) (run_update _) (hy.bind (agrees_next hlt) fun _ y hy _ => ?_)
    refine hy.bind (agrees_qname hy.within) fun name y hy _ => ?_
    refine hy.bind (agrees_skipBlank hy.within) fun _ y hy _ => ?_
    refine hy.bind (agrees_current hy.within) fun b y hy hb => ?_
    refine hy.ite (fun _ hy => ?_) fun _ hy => hy.fail
    refine hy.bind (agrees_pass (lt_of_current hb)) fun _ y hy _ => ?_
    refine hy.bind (Agrees.here hy.within) fun stop y hy _ => ?_
    exact (hy.done rfl).tell.bind fun _ z hz => hz.2.close hz.1

/-- A tag is passed, or an error of it found. -/
theorem leads_element (hlt : x.1.position < doc.length)
    (hx : Before doc h E depth start (Read.markup depth) x) :
    Leads doc E (element doc h) x fun _ y => Onward doc h E (x.1.position + 1) y := by
  refine .next (m := here) rfl ((hx.answered rfl).bind (agrees_next hlt) fun b y hy hb => ?_)
  have hpassed : x.1.position + 1 ≤ y.1.position := by
    have := Read.strict_next.2 _ _ _ hb
    simp only [seek, List.length_drop] at this
    omega
  have hy := Before.mk hy.depth_eq hy.rootOpen hpassed hy.within hy.ending
  have hlt := lt_of_next hb
  refine hy.ite (fun _ hy => leads_closeElement hlt hy) fun _ hy => ?_
  refine hy.ite (fun _ hy => leads_special hy) fun _ hy => ?_
  refine hy.ite (fun _ hy => (leads_declaration hlt hy).mono fun _ _ hz => hz.onward) fun _ hy => ?_
  exact hy.ite (fun _ hy => leads_openElement hy) fun _ hy => hy.fail

/-! Content, and a whole document. -/

theorem content_seek {b : Byte} (hb : (seek doc x.1.position).peek? = some b) :
    Read.content depth (seek doc x.1.position) =
      (if b = .openAngle then Read.markup depth
        else if depth = 0 then Read.skipOutside else Read.textStep depth) (seek doc x.1.position) := by
  obtain ⟨rest, hrest⟩ := List.head?_eq_some_iff.1 hb
  rw [Read.content, hrest]
  by_cases hopen : b = .openAngle
  · simp only [hopen, if_true]
  · by_cases h0 : depth = 0 <;> simp only [hopen, h0, if_true, if_false]

theorem run_skipOutside (hwithin : x.1.position ≤ doc.length) :
    skipOutside doc x = some (.ok (), ({ x.1 with
      position := ((seek doc x.1.position).skipWhile (· != Byte.openAngle)).pos }, x.2)) := by
  obtain ⟨hafter, hle, hend⟩ := skipWhile_seek_eq (· != Byte.openAngle) hwithin
  refine (run_bind_ok (m := look doc _) rfl).trans ?_
  obtain ⟨hnone, hrest⟩ | ⟨b, rest, hsome, -, -⟩ := find?_seek (p := (· == Byte.openAngle))
    (q := (· != Byte.openAngle)) (fun _ => rfl) doc x.1.position
  · rw [hnone, Option.getD_none, length_of_rest hend (hafter ▸ hrest)]
    exact run_moveTo hwithin
  · rw [hsome, Option.getD_some]
    exact run_moveTo hle

def Ended (doc : Bytes) (E : Ending σ) (x : Reader × σ) : Prop :=
  x.1.position ≤ doc.length ∧
    E = ⟨x.2, if x.1.depth = 0 then none
      else some (.malformed (.elementsOpen x.1.depth) (some x.1.position)), x.1.position⟩

theorem leads_bodyRound (hx : Before doc h E depth start (Read.content depth) x) :
    Leads doc E (bodyRound doc h) x fun again y =>
      if again then Before doc h E y.1.depth start (Read.content y.1.depth) y ∧
        left doc y < left doc x
      else Ended doc E y := by
  obtain rfl := hx.depth_eq
  refine .next (m := look doc Cursor.peek?) rfl ?_
  cases hpeek : (seek doc x.1.position).peek? with
  | none =>
    have hending := hx.ending
    rw [Read.content, List.head?_eq_none_iff.1 hpeek] at hending
    refine .of_ok rfl ⟨hx.within, ?_⟩
    rw [← hending]
    by_cases h0 : x.1.depth = 0
    · simp only [h0, if_true, Document.after_none, Cursor.pos_seek]
    · simp only [h0, if_false, after, Cursor.pos_seek]
  | some b =>
    have hlt := Cursor.lt_of_peek? hpeek
    have hcontent := hx.ending
    rw [content_seek hpeek] at hcontent
    have hx := Before.mk hx.depth_eq hx.rootOpen hx.passed hx.within hcontent
    refine hx.ite (fun _ hx => ?_) fun hb hx => .next (m := reader) rfl ?_
    · refine (leads_element hlt hx).bind fun _ y hy => .next (m := reader) rfl ?_
      obtain hy | ⟨hroot, hdepth, hwithin, hE⟩ := hy
      · rw [hy.rootOpen]
        have hpassed := hy.passed
        refine .of_ok rfl ⟨⟨rfl, hy.rootOpen, ?_, hy.within, hy.ending⟩, ?_⟩
        · have := hx.passed
          omega
        · simp only [left, seek, List.length_drop]
          omega
      · rw [hroot]
        refine .of_ok rfl ⟨hwithin, ?_⟩
        rw [if_pos hdepth]
        exact hE
    · refine hx.ite (fun h0 hx => ?_) fun _ hx => ?_
      · obtain ⟨hafter, hle, hend⟩ := skipWhile_seek_eq (· != Byte.openAngle) hx.within
        have hskip : Read.skipOutside (seek doc x.1.position) = .ok ⟨[], some ⟨0, .content⟩⟩
          ((seek doc x.1.position).skipWhile (· != Byte.openAngle)) := rfl
        have hless := Read.skipOutside_shrinks hskip hpeek hb
        have hE := hx.ending
        rw [hskip, hafter, Document.after_place, ← h0] at hE
        rw [hafter] at hless
        exact .next (run_skipOutside hx.within) (.of_ok rfl
          ⟨⟨rfl, hx.rootOpen, Nat.le_trans hx.passed hle, hend, hE⟩, hless⟩)
      · refine hx.bind (agrees_text hx.within) fun t y hy ht => hy.tell.bind fun _ z hz => ?_
        obtain ⟨hz, hz'⟩ := hz
        have hstep : Read.textStep x.1.depth (seek doc x.1.position) =
            .ok ⟨[⟨.characters t, y.1.position⟩], some ⟨x.1.depth, .content⟩⟩
              (seek doc y.1.position) := by
          simp only [Read.textStep, Bind.bind, EStateM.bind, ht]
          rfl
        refine .of_ok rfl ⟨?_, ?_⟩
        · rw [← hz'.depth_eq] at hz'
          exact hz'
        · rw [left, hz]
          exact Read.textStep_shrinks hstep hpeek hb

theorem leads_body (hx : Before doc h E depth start (Read.content depth) x) :
    Leads doc E (loop doc (bodyRound doc h)) x fun _ y => Ended doc E y :=
  .loop (fun _ hx => leads_bodyRound hx) (hx.depth_eq.symm ▸ hx)

theorem skipWhile_skipWhile {p q : Byte → Bool} (hpq : ∀ b, p b = true → q b = true) (c : Cursor) :
    (c.skipWhile p).skipWhile q = c.skipWhile q := by
  obtain ⟨pos, rest⟩ := c
  induction rest generalizing pos with
  | nil => rfl
  | cons b rest ih =>
    cases hb : p b with
    | false => simp [Cursor.skipWhile, hb]
    | true =>
      have ih := ih (pos + 1)
      simp only [Cursor.skipWhile, Cursor.mk.injEq] at ih
      simp only [Cursor.skipWhile, List.takeWhile_cons, List.dropWhile_cons, hb, hpq b hb, if_true,
        List.length_cons, Cursor.mk.injEq, ih.2, and_true]
      omega

/-- Outside of the root element only the next tag matters. -/
theorem after_content (h : Handler σ Event) (s : σ) (c : Cursor) :
    after h s (Read.content 0 (c.skipWhile (· != Byte.openAngle))) =
      after h s (Read.content 0 c) := by
  obtain ⟨pos, rest⟩ := c
  cases rest with
  | nil => rfl
  | cons b rest =>
    by_cases hopen : b = .openAngle
    · simp [Cursor.skipWhile, hopen]
    · have hskip : Read.content 0 ⟨pos, b :: rest⟩ = .ok ⟨[], some ⟨0, .content⟩⟩
          (Cursor.skipWhile ⟨pos, b :: rest⟩ (· != Byte.openAngle)) := by
        rw [Read.content]
        simp only [hopen, if_false, if_true]
        rfl
      rw [hskip, Document.after_place]
      rfl

theorem after_skipBlank (h : Handler σ Event) (s : σ) (c : Cursor) :
    after h s (Read.content 0 c.skipBlank) = after h s (Read.content 0 c) := by
  rw [← after_content h s c.skipBlank, Cursor.skipBlank, skipWhile_skipWhile, after_content]
  intro b hb
  rw [bne_iff_ne]
  rintro rfl
  exact absurd hb (by decide)

theorem leads_header {config : Config} (hx : Before doc h E 0 0 (Read.header config) x) :
    Leads doc E (header doc h config) x fun _ y => Before doc h E 0 0 (Read.content 0) y := by
  refine hx.bind (agrees_encoding hx.within) fun _ y hy _ => ?_
  refine hy.bind (agrees_skipBlank hy.within) fun _ y hy _ => ?_
  refine hy.bind (.look hy.within _) fun b y hy hb => hy.ite (fun hopen hy => ?_) fun _ hy => hy.fail
  refine hy.ite (fun _ hy => ?_) fun _ hy => .of_ok rfl hy.place
  refine hy.bind (agrees_next (lt_of_peek hb hopen)) fun b y hy hb => ?_
  exact hy.ite (fun _ hy => leads_declaration (lt_of_next hb) hy) fun _ hy => hy.fail

theorem leads_parse (config : Config) (doc : Bytes) (h : Handler σ Event) (s : σ)
    (leftover : Reader) :
    let reading := Document.read config doc h s
    Leads doc reading (parse doc h config) (leftover, s) fun _ y =>
      y.1.position ≤ doc.length ∧ reading = ⟨y.2, none, y.1.position⟩ := by
  intro reading
  have hx : Before doc h reading 0 0 (Read.header config) (({} : Reader), s) :=
    ⟨rfl, rfl, Nat.le_refl _, Nat.zero_le _, (Document.read_eq_after ..).symm⟩
  refine .next (run_update _) ((leads_header hx).bind fun _ y hy => ?_)
  have hy : Before doc h reading 0 0 (Read.skipBlank >>= fun _ => Read.content 0) y :=
    ⟨hy.depth_eq, hy.rootOpen, hy.passed, hy.within, (after_skipBlank ..).trans hy.ending⟩
  refine hy.bind (agrees_skipBlank hy.within) fun _ y hy _ => (leads_body hy).bind fun _ y hy => ?_
  obtain ⟨hwithin, hE⟩ := hy
  refine .next (m := reader) rfl (.ite (fun h0 => ?_) fun h0 => ?_)
  · rw [if_pos h0] at hE
    exact .of_ok rfl ⟨hwithin, hE⟩
  · rw [if_neg h0] at hE
    exact ⟨hE, hwithin⟩

end Reader

def outcome : Option Error → Except Error Unit
  | some error => .error error
  | none => .ok ()

theorem Reader.parse_eq (config : Config) (doc : Bytes) (h : Handler σ Event) (s : σ)
    (leftover : Reader) :
    let reading := Document.read config doc h s
    ∃ reader : Reader,
      Reader.parse doc h config (leftover, s) =
        some (outcome reading.error, (reader, reading.state)) ∧
      reader.position = reading.position ∧ reader.position ≤ doc.length := by
  intro reading
  have hleads := Reader.leads_parse config doc h s leftover
  rw [Reader.Leads] at hleads
  split at hleads
  · exact hleads.elim
  · rename_i error y hy
    obtain ⟨hE, hwithin⟩ := hleads
    have hE : reading = ⟨y.2, some error, y.1.position⟩ := hE
    rw [hE]
    exact ⟨y.1, hy, rfl, hwithin⟩
  · rename_i y hy
    obtain ⟨hwithin, hE⟩ := hleads
    have hE : reading = ⟨y.2, none, y.1.position⟩ := hE
    rw [hE]
    exact ⟨y.1, hy, rfl, hwithin⟩

/-- A machine that has been used before reads every document to an end without going wrong, and
answers what the reading does. Its cursor stays inside of the document, and each error that its
handler has not raised tells the offset of the cursor. -/
theorem Reader.parse_reading (config : Config) (doc : Bytes) (h : Handler σ Event) (s : σ)
    (leftover : Reader) :
    let reading := Document.read config doc h s
    ∃ reader : Reader,
      Reader.parse doc h config (leftover, s) =
        some (outcome reading.error, (reader, reading.state)) ∧
      reader.position = reading.position ∧ reader.position ≤ doc.length ∧
      ∀ error, reading.error = some error →
        (h.feed s (Document.trace config doc).events).2 = some error ∨
          ∃ cause, error = .malformed cause (some reader.position) := by
  intro reading
  obtain ⟨reader, hparse, hposition, hwithin⟩ := Reader.parse_eq config doc h s leftover
  refine ⟨reader, hparse, hposition, hwithin, fun error herror => ?_⟩
  have hread := Document.read_error config doc h s
  cases hfed : (h.feed s (Document.trace config doc).events).2 with
  | some raised =>
    rw [hfed] at hread
    exact .inl (hread.symm.trans herror)
  | none =>
    rw [hfed, Option.none_or] at hread
    rw [hposition, Document.read_position hfed]
    exact .inr (Document.trace_error_position (hread.symm.trans herror))

end XmlStream
