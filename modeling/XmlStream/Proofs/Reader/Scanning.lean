import XmlStream.Proofs.Reader
import XmlStream.Proofs.Reading.Value
/-! Scanning. A machine that looks for something in a document answers what the read for it answers,
moves its cursor to the same offset and touches nothing else but its buffer. -/
namespace XmlStream

namespace Cursor

variable {doc : Bytes} {pos : Nat}

theorem pos_seek (doc : Bytes) (pos : Nat) : (seek doc pos).pos = pos := rfl

/-- A cursor of a document that moves on is one of the same document. -/
theorem seek_of_reaches {c : Cursor} (h : (seek doc pos).Reaches c) (hp : pos ≤ doc.length) :
    c = seek doc c.pos ∧ pos ≤ c.pos ∧ c.pos ≤ doc.length := by
  have hlength := h.length_eq
  obtain ⟨passed, hrest, hpos⟩ := h
  obtain ⟨offset, rest⟩ := c
  simp only [seek, List.length_drop] at hrest hpos hlength ⊢
  refine ⟨?_, by omega, by omega⟩
  rw [hpos, ← List.drop_drop, hrest, List.drop_left]

theorem rest_seek_ne_nil (h : pos < doc.length) : ∃ b, (seek doc pos).rest = b :: doc.drop (pos + 1) ∧
    doc[pos]? = some b :=
  ⟨doc[pos], List.drop_eq_getElem_cons h, List.getElem?_eq_getElem h⟩

theorem peek?_seek (doc : Bytes) (pos : Nat) : (seek doc pos).peek? = doc[pos]? :=
  List.head?_drop

theorem lt_of_peek? {b : Byte} (h : (seek doc pos).peek? = some b) : pos < doc.length := by
  rw [peek?_seek] at h
  exact (List.getElem?_eq_some_iff.1 h).1

theorem advance_seek (doc : Bytes) (pos n : Nat) : (seek doc pos).advance n = seek doc (pos + n) := by
  simp [advance, seek]

end Cursor

namespace Reader

open Cursor (seek)

variable {σ α β : Type} {doc : Bytes} {x y : Reader × σ}

/-! What the parts of a machine do, one after the other. -/

theorem run_bind_ok {m : Work σ α} {f : α → Work σ β} {a : α} (h : m x = some (.ok a, y)) :
    (m >>= f) x = f a y := by
  change (m x).bind _ = _
  rw [h]
  rfl

theorem run_bind_error {m : Work σ α} {f : α → Work σ β} {e : Error}
    (h : m x = some (.error e, y)) : (m >>= f) x = some (.error e, y) := by
  change (m x).bind _ = _
  rw [h]
  rfl

theorem run_update (f : Reader → Reader) : update f x = some (.ok (), (f x.1, x.2)) := rfl

theorem run_advance (n : Nat) :
    advance n x = some (.ok (), ({ x.1 with position := x.1.position + n }, x.2)) := rfl

theorem run_collect (bytes : Bytes) :
    collect bytes x = some (.ok (), ({ x.1 with scratch := x.1.scratch.append bytes }, x.2)) := rfl

theorem run_reset : reset x = some (.ok (), ({ x.1 with scratch := .empty }, x.2)) := rfl

theorem run_moveTo {offset : Nat} (h : x.1.position ≤ offset) :
    moveTo offset x = some (.ok (), ({ x.1 with position := offset }, x.2)) := if_pos h

theorem run_byteAt {offset : Nat} {b : Byte} (h : doc[offset]? = some b) :
    byteAt doc offset x = some (.ok b, x) := by
  rw [byteAt, h]
  rfl

theorem run_slice {start stop : Nat} (h : start ≤ stop) (hs : stop ≤ doc.length) :
    slice doc start stop x = some (.ok ((doc.take stop).drop start), x) := if_pos ⟨h, hs⟩

variable {round : Work σ Bool} {n : Nat}

theorem rounds_again (h : round x = some (.ok true, y)) :
    rounds round (n + 1) x = rounds round n y := run_bind_ok h

theorem rounds_last (h : round x = some (.ok false, y)) :
    rounds round (n + 1) x = some (.ok (), y) := run_bind_ok h

theorem rounds_error {e : Error} (h : round x = some (.error e, y)) :
    rounds round (n + 1) x = some (.error e, y) := run_bind_error h

/-- A round that leaves the rest of the work to its last part. -/
theorem rounds_ending {last : Work σ Unit}
    (h : round x = (do last; return false : Work σ Bool) y) : rounds round (n + 1) x = last y := by
  change (round x).bind _ = _
  rw [h]
  change ((last y).bind _).bind _ = _
  rcases last y with _ | ⟨_ | _, _⟩ <;> rfl

def answer (x : Reader × σ) (scratch : Buffer) :
    EStateM.Result Cause Cursor α → Except Error α × (Reader × σ)
  | .ok a c => (.ok a, ({ x.1 with position := c.pos, scratch }, x.2))
  | .error cause c =>
    (.error (.malformed cause (some c.pos)), ({ x.1 with position := c.pos, scratch }, x.2))

theorem read_bind (r : Read α) (g : α → Read β) (c : Cursor) : (r >>= g) c = match r c with
    | .ok a c => g a c
    | .error cause c => .error cause c := by
  simp only [Bind.bind, EStateM.bind]
  cases r c <;> rfl

structure Agrees (doc : Bytes) (m : Work σ α) (r : Read α) (pos : Nat) : Prop where
  seeks : Read.stop (r (seek doc pos)) = seek doc (Read.stop (r (seek doc pos))).pos
  passed : pos ≤ (Read.stop (r (seek doc pos))).pos
  within : (Read.stop (r (seek doc pos))).pos ≤ doc.length
  works : ∀ x, x.1.position = pos → ∃ scratch, m x = some (answer x scratch (r (seek doc pos)))

variable {m : Work σ α} {r : Read α} {pos : Nat}

theorem Agrees.of_forward (hr : Read.Forward r) (hp : pos ≤ doc.length)
    (hm : ∀ x, x.1.position = pos → ∃ scratch, m x = some (answer x scratch (r (seek doc pos)))) :
    Agrees doc m r pos := by
  obtain ⟨hseek, hpassed, hwithin⟩ := Cursor.seek_of_reaches (hr (seek doc pos)) hp
  exact ⟨hseek, hpassed, hwithin, hm⟩

theorem Agrees.pure (hp : pos ≤ doc.length) (a : α) :
    Agrees doc (pure a : Work σ α) (pure a) pos :=
  .of_forward (.pure a) hp fun x hx => ⟨x.1.scratch, by subst hx; rfl⟩

theorem Agrees.fail (hp : pos ≤ doc.length) (cause : Cause) :
    Agrees doc (fail cause : Work σ α) (throw cause) pos :=
  .of_forward (.throw cause) hp fun x hx => ⟨x.1.scratch, by subst hx; rfl⟩

theorem Agrees.look (hp : pos ≤ doc.length) (f : Cursor → α) :
    Agrees doc (look doc f : Work σ α) (fun c => .ok (f c) c) pos :=
  .of_forward (fun c => .refl c) hp fun x hx => ⟨x.1.scratch, by subst hx; rfl⟩

theorem Agrees.here (hp : pos ≤ doc.length) : Agrees doc (here : Work σ Nat) Read.position pos :=
  .of_forward Read.forward_position hp fun x hx => ⟨x.1.scratch, by subst hx; rfl⟩

/-- What is known after a part: it has answered, and the offset is still one of the document. -/
theorem Agrees.bind {f : α → Work σ β} {g : α → Read β} (hm : Agrees doc m r pos)
    (hf : ∀ a pos', r (seek doc pos) = .ok a (seek doc pos') → pos' ≤ doc.length →
      Agrees doc (f a) (g a) pos') : Agrees doc (m >>= f) (r >>= g) pos := by
  obtain ⟨hseeks, hpassed, hwithin, hworks⟩ := hm
  have hbind := read_bind r g (seek doc pos)
  rcases hr : r (seek doc pos) with ⟨a, c⟩ | ⟨cause, c⟩ <;>
    rw [hr] at hseeks hpassed hwithin hworks hbind
  · obtain ⟨hs, hp, hw, hx⟩ := hf a c.pos (hr.trans (congrArg _ hseeks)) hwithin
    rw [← show c = seek doc c.pos from hseeks] at hs hp hw hx
    refine ⟨by rwa [hbind], by rw [hbind]; exact Nat.le_trans hpassed hp, by rwa [hbind],
      fun x hpos => ?_⟩
    obtain ⟨scratch, hmx⟩ := hworks x hpos
    obtain ⟨scratch', hfx⟩ := hx ({ x.1 with position := c.pos, scratch }, x.2) rfl
    refine ⟨scratch', ?_⟩
    rw [run_bind_ok hmx, hfx, hbind]
    rfl
  · refine ⟨by rwa [hbind], by rwa [hbind], by rwa [hbind], fun x hpos => ?_⟩
    obtain ⟨scratch, hmx⟩ := hworks x hpos
    refine ⟨scratch, ?_⟩
    rw [run_bind_error hmx, hbind]
    rfl

theorem Agrees.ite {p : Prop} [Decidable p] {m' : Work σ α} {r' : Read α}
    (hm : p → Agrees doc m r pos) (hm' : ¬ p → Agrees doc m' r' pos) :
    Agrees doc (if p then m else m') (if p then r else r') pos := by
  split
  · exact hm (by assumption)
  · exact hm' (by assumption)

theorem agrees_current (hp : pos ≤ doc.length) :
    Agrees doc (current doc : Work σ Byte) Read.current pos := by
  refine .of_forward Read.forward_current hp fun x hx => ⟨x.1.scratch, ?_⟩
  subst hx
  rw [current, run_bind_ok (m := look doc Cursor.peek?) rfl, Cursor.peek?, Read.current]
  cases (seek doc x.1.position).rest <;> rfl

theorem run_current (doc : Bytes) (x : Reader × σ) :
    current doc x = some (match doc[x.1.position]? with
      | some b => (.ok b, x)
      | none => (.error (.malformed .prematureEnd (some x.1.position)), x)) := by
  rw [current, run_bind_ok (m := look doc Cursor.peek?) rfl, Cursor.peek?_seek]
  cases doc[x.1.position]? <;> rfl

theorem pass_seek (hp : pos < doc.length) :
    Read.pass (seek doc pos) = .ok () (seek doc (pos + 1)) := by
  obtain ⟨b, hb, -⟩ := Cursor.rest_seek_ne_nil hp
  rw [Read.pass, hb]
  rfl

theorem agrees_pass (hp : pos < doc.length) :
    Agrees doc (advance 1 : Work σ Unit) Read.pass pos := by
  refine .of_forward Read.strict_pass.forward (Nat.le_of_lt hp) fun x hx => ⟨x.1.scratch, ?_⟩
  subst hx
  rw [pass_seek hp]
  rfl

theorem agrees_next (hp : pos < doc.length) :
    Agrees doc (next doc : Work σ Byte) Read.next pos :=
  (agrees_pass hp).bind fun _ _ _ hp' => agrees_current hp'

theorem agrees_require (hp : pos ≤ doc.length) (cause : Cause) :
    Agrees doc (require doc cause : Work σ Unit) (Read.require 1 cause) pos := by
  refine .of_forward (Read.forward_require 1 cause) hp fun x hx => ⟨x.1.scratch, ?_⟩
  subst hx
  have hhas : (seek doc x.1.position).has 1 = true ↔ x.1.position < doc.length := by
    rw [Cursor.has_iff, Cursor.seek, List.length_drop]
    omega
  rw [require, run_bind_ok (m := reader) rfl, Read.require]
  by_cases hlt : x.1.position < doc.length
  · rw [if_pos hlt, if_pos (hhas.2 hlt)]
    rfl
  · rw [if_neg hlt, if_neg (mt hhas.1 hlt)]
    rfl

/-- Byte by byte as far as the bytes are of a kind. -/
theorem skipWhile_seek {p : Byte → Bool} {b : Byte} (h : doc[pos]? = some b) :
    (seek doc pos).skipWhile p =
      if p b then (seek doc (pos + 1)).skipWhile p else seek doc pos := by
  obtain ⟨hlt, rfl⟩ := List.getElem?_eq_some_iff.1 h
  simp only [Cursor.skipWhile, seek, List.drop_eq_getElem_cons hlt, List.takeWhile_cons,
    List.dropWhile_cons]
  split
  · simp [Nat.add_assoc, Nat.add_comm]
  · rfl

theorem skipWhile_seek_end {p : Byte → Bool} (h : doc.length ≤ pos) :
    (seek doc pos).skipWhile p = seek doc pos := by
  simp [Cursor.skipWhile, seek, List.drop_eq_nil_of_le h]

theorem run_blankRound (hlt : x.1.position < doc.length) :
    blankRound doc x = some (if doc[x.1.position].isBlank
      then (.ok true, ({ x.1 with position := x.1.position + 1 }, x.2)) else (.ok false, x)) := by
  rw [blankRound, run_bind_ok (m := reader) rfl, if_pos hlt,
    run_bind_ok (run_byteAt (List.getElem?_eq_getElem hlt))]
  split <;> rfl

theorem run_blankRound_end (hend : doc.length ≤ x.1.position) :
    blankRound doc x = some (.ok false, x) := by
  rw [blankRound, run_bind_ok (m := reader) rfl, if_neg (by omega)]
  rfl

theorem rounds_blankRound (hn : doc.length - x.1.position < n) :
    rounds (blankRound doc) n x =
      some (.ok (), ({ x.1 with position := (seek doc x.1.position).skipBlank.pos }, x.2)) := by
  -- each round takes a byte
  induction n generalizing x with
  | zero => omega
  | succ n ih =>
    by_cases hlt : x.1.position < doc.length
    · have hround := run_blankRound hlt
      rw [Cursor.skipBlank, skipWhile_seek (List.getElem?_eq_getElem hlt)]
      split at hround
      · rw [rounds_again hround, if_pos (by assumption)]
        exact ih (x := ({ x.1 with position := x.1.position + 1 }, x.2)) (by simp only; omega)
      · rw [rounds_last hround, if_neg (by assumption)]
        rfl
    · rw [rounds_last (run_blankRound_end (by omega)), Cursor.skipBlank,
        skipWhile_seek_end (by omega)]
      rfl

theorem agrees_skipBlank (hp : pos ≤ doc.length) :
    Agrees doc (skipBlank doc : Work σ Unit) Read.skipBlank pos :=
  .of_forward Read.forward_skipBlank hp fun x hx => ⟨x.1.scratch, by
    subst hx
    exact rounds_blankRound (by omega)⟩

theorem has_seek (doc : Bytes) (pos n : Nat) :
    (seek doc pos).has n = true ↔ ¬ (seek doc pos).remains < n := by
  rw [Cursor.has_iff, Nat.not_lt]
  rfl

theorem agrees_expectNext (hp : pos ≤ doc.length) (text : String) :
    Agrees doc (expectNext doc text : Work σ Unit) (Read.expectNext text) pos := by
  refine .of_forward (Read.forward_expectNext text) hp fun x hx => ⟨x.1.scratch, ?_⟩
  subst hx
  have hhas := has_seek doc x.1.position ((utf8 text).length + 1)
  rw [expectNext, run_bind_ok (m := look doc _) rfl, Read.expectNext, Cursor.advance_seek]
  by_cases hshort : (seek doc x.1.position).remains < (utf8 text).length + 1
  · rw [if_pos hshort, if_pos (by simpa using mt hhas.1 (not_not_intro hshort))]
    rfl
  · rw [if_neg hshort, if_neg (by simpa using hhas.2 hshort), run_bind_ok (run_advance 1),
      run_bind_ok (m := look doc _) rfl]
    by_cases hfound : (seek doc (x.1.position + 1)).startsWith (utf8 text)
    · rw [if_neg (by simpa using hfound), if_neg (by simpa using hfound)]
      simp [advance, update, answer, Cursor.advance, Cursor.seek]; omega
    · rw [if_pos (by simpa using hfound), if_pos (by simpa using hfound)]
      rfl

/-- Bytes that have been passed are a slice of the document. -/
theorem run_slice_passed {passed rest : Bytes} (h : (seek doc pos).rest = passed ++ rest)
    (hp : pos ≤ doc.length) :
    slice doc pos (pos + passed.length) x = some (.ok passed, x) := by
  have hlength := congrArg List.length h
  rw [List.length_append, seek, List.length_drop] at hlength
  rw [run_slice (Nat.le_add_right _ _) (by omega), List.drop_take, Nat.add_sub_cancel_left,
    show doc.drop pos = _ from h, List.take_left]

theorem run_slice_skipWhile (p : Byte → Bool) (hp : pos ≤ doc.length) :
    slice doc pos ((seek doc pos).skipWhile p).pos x =
      some (.ok ((seek doc pos).rest.takeWhile p), x) :=
  run_slice_passed List.takeWhile_append_dropWhile.symm hp

theorem run_slice_empty (hp : pos ≤ doc.length) : slice doc pos pos x = some (.ok [], x) :=
  run_slice_passed (List.nil_append _).symm hp

theorem run_nameRound {b : Byte} (hb : doc[x.1.position]? = some b) :
    let y : Reader × σ := ({ x.1 with position := x.1.position + 1 }, x.2)
    nameRound doc x = some (if b.isNameByte then
        if doc.length ≤ x.1.position + 1
        then (.error (.malformed .prematureEnd (some (x.1.position + 1))), y) else (.ok true, y)
      else (.ok false, x)) := by
  intro y
  have hcurrent := run_current doc x
  rw [hb] at hcurrent
  rw [nameRound, run_bind_ok hcurrent]
  split
  · have hnext : next doc x = current doc y := run_bind_ok (run_advance 1)
    rw [run_current] at hnext
    split
    · rw [show doc[y.1.position]? = none from List.getElem?_eq_none_iff.2 (by assumption)] at hnext
      rw [run_bind_error hnext]
    · rw [show doc[y.1.position]? = some _ from List.getElem?_eq_getElem (Nat.lt_of_not_le (by assumption))] at hnext
      rw [run_bind_ok hnext]
      rfl
  · rfl

/-- The cursor is on a byte of a name. It goes past the name, after which something has to come. -/
theorem rounds_nameRound {b : Byte} (hb : doc[x.1.position]? = some b)
    (hn : doc.length - x.1.position < n) :
    let after := (seek doc x.1.position).skipWhile Byte.isNameByte
    let out : Reader × σ := ({ x.1 with position := after.pos }, x.2)
    rounds (nameRound doc) n x = some (if after.rest.isEmpty
      then (.error (.malformed .prematureEnd (some after.pos)), out) else (.ok (), out)) := by
  induction n generalizing x b with
  | zero => omega
  | succ n ih =>
    intro after out
    have hround := run_nameRound hb
    dsimp only at hround
    simp only [out, after, skipWhile_seek hb]
    by_cases hname : b.isNameByte
    · rw [if_pos hname] at hround ⊢
      by_cases hend : doc.length ≤ x.1.position + 1
      · have hempty : (seek doc (x.1.position + 1)).rest.isEmpty = true := by
          rw [seek, List.drop_eq_nil_of_le hend]
          rfl
        rw [if_pos hend] at hround
        rw [rounds_error hround, skipWhile_seek_end hend, if_pos hempty]
        rfl
      · rw [if_neg hend] at hround
        rw [rounds_again hround]
        exact ih (x := ({ x.1 with position := x.1.position + 1 }, x.2))
          (List.getElem?_eq_getElem (by simp only; omega)) (by simp only; omega)
    · rw [if_neg hname] at hround ⊢
      obtain ⟨b', hrest, -⟩ := Cursor.rest_seek_ne_nil (List.getElem?_eq_some_iff.1 hb).1
      rw [rounds_last hround, hrest]
      rfl

theorem agrees_name (hp : pos ≤ doc.length) :
    Agrees doc (name doc : Work σ Bytes) Read.name pos := by
  refine .of_forward Read.strict_name.forward hp fun x hx => ⟨x.1.scratch, ?_⟩
  subst hx
  have hcurrent := run_current doc x
  rw [name, run_bind_ok (m := here) rfl, Read.name]
  cases hb : doc[x.1.position]? with
  | none =>
    rw [hb] at hcurrent
    have hnil : (seek doc x.1.position).rest = [] :=
      List.drop_eq_nil_of_le (List.getElem?_eq_none_iff.1 hb)
    rw [run_bind_error hcurrent, hnil]
    rfl
  | some b =>
    rw [hb] at hcurrent
    obtain ⟨b', hrest, hb'⟩ := Cursor.rest_seek_ne_nil (List.getElem?_eq_some_iff.1 hb).1
    obtain rfl := Option.some.inj (hb'.symm.trans hb)
    rw [run_bind_ok hcurrent, hrest]
    dsimp only
    by_cases hletter : b'.isLetter
    · have hname : loop doc (nameRound doc) x = _ := rounds_nameRound hb (by omega)
      dsimp only at hname
      rw [if_neg (by simpa using hletter), if_neg (by simpa using hletter)]
      by_cases hempty : ((seek doc x.1.position).skipWhile Byte.isNameByte).rest.isEmpty
      · rw [if_pos hempty] at hname ⊢
        rw [run_bind_error hname]
        rfl
      · rw [if_neg hempty] at hname ⊢
        rw [run_bind_ok hname, run_bind_ok (m := here) rfl, run_slice_skipWhile _ hp, hrest]
        rfl
    · rw [if_pos (by simpa using hletter), if_pos (by simpa using hletter)]
      rfl

/-- A part that only asks for the offset, or takes nothing from it, reads nothing. -/
theorem Agrees.silent {f : β → Work σ α} {b : β} {n : Work σ β}
    (hn : ∀ x : Reader × σ, x.1.position = pos → n x = some (.ok b, x))
    (h : Agrees doc (f b) r pos) : Agrees doc (n >>= f) r pos := by
  refine ⟨h.seeks, h.passed, h.within, fun x hx => ?_⟩
  rw [run_bind_ok (hn x hx)]
  exact h.works x hx

theorem Agrees.start {f : Nat → Work σ α} (h : Agrees doc (f pos) r pos) :
    Agrees doc (Reader.here >>= f) r pos :=
  .silent (fun x hx => by subst hx; rfl) h

/-! Where a byte has been seen, there is one to pass. -/

theorem lt_of_peek {p p' : Nat} {b : Option Byte} {v : Byte}
    (h : Read.peek? (seek doc p) = .ok b (seek doc p')) (hb : b = some v) : p' < doc.length := by
  injection h with hpeek hseek
  obtain rfl : p = p' := congrArg Cursor.pos hseek
  exact Cursor.lt_of_peek? (hpeek.trans hb)

theorem lt_of_current {p p' : Nat} {b : Byte}
    (h : Read.current (seek doc p) = .ok b (seek doc p')) : p' < doc.length := by
  unfold Read.current at h
  split at h
  · cases h
  · rename_i hrest
    injection h with _ hseek
    obtain rfl : p = p' := congrArg Cursor.pos hseek
    exact Cursor.lt_of_peek? (congrArg List.head? hrest)

theorem lt_of_next {p p' : Nat} {b : Byte} (h : Read.next (seek doc p) = .ok b (seek doc p')) :
    p' < doc.length := by
  obtain ⟨_, c, hc, h⟩ := Read.bind_eq_ok h
  unfold Read.current at h
  split at h
  · cases h
  · rename_i hrest
    injection h with _ hseek
    rw [hseek] at hrest
    exact Cursor.lt_of_peek? (congrArg List.head? hrest)

theorem agrees_qname (hp : pos ≤ doc.length) :
    Agrees doc (qname doc : Work σ QName) Read.qname pos := by
  refine .start <| (agrees_name hp).bind fun first p₁ _ hp₁ => (Agrees.look hp₁ _).bind
    fun b p₂ hb hp₂ => .ite (fun hcolon => ?_) fun _ => ?_
  · exact (agrees_next (lt_of_peek hb hcolon)).bind fun _ _ _ hp₃ => (agrees_name hp₃).bind
      fun _ _ _ hp₄ => .pure hp₄ _
  · exact .silent (fun x _ => run_slice_empty hp) (.pure hp₂ _)

/-! Text and values. -/

/-- A search comes to where the bytes end that it passes. -/
theorem find?_seek {p q : Byte → Bool} (hq : ∀ b, q b = !p b) (doc : Bytes) (pos : Nat) :
    ((seek doc pos).find? p = none ∧ ((seek doc pos).skipWhile q).rest = []) ∨
      ∃ b rest, (seek doc pos).find? p = some ((seek doc pos).skipWhile q).pos ∧
        ((seek doc pos).skipWhile q).rest = b :: rest ∧ p b = true := by
  have key (bytes : Bytes) : (bytes.findIdx? p = none ∧ bytes.dropWhile q = []) ∨
      ∃ b rest, bytes.findIdx? p = some (bytes.takeWhile q).length ∧
        bytes.dropWhile q = b :: rest ∧ p b = true := by
    induction bytes with
    | nil => exact .inl ⟨rfl, rfl⟩
    | cons b bytes ih =>
      rw [List.findIdx?_cons, List.takeWhile_cons, List.dropWhile_cons, hq]
      cases hb : p b with
      | true => exact .inr ⟨b, bytes, rfl, rfl, hb⟩
      | false =>
        obtain ⟨hnone, hrest⟩ | ⟨b', rest, hsome, hrest, hb'⟩ := ih
        · exact .inl ⟨by simp [hnone], hrest⟩
        · exact .inr ⟨b', rest, by simp [hsome], hrest, hb'⟩
  obtain ⟨hnone, hrest⟩ | ⟨b, rest, hsome, hrest, hb⟩ := key (seek doc pos).rest
  · exact .inl ⟨by rw [Cursor.find?, hnone]; rfl, hrest⟩
  · exact .inr ⟨b, rest, by rw [Cursor.find?, hsome]; rfl, hrest, hb⟩

/-- Where a search from an offset has come to, in the document. -/
theorem skipWhile_seek_eq (q : Byte → Bool) (hp : pos ≤ doc.length) :
    let after := (seek doc pos).skipWhile q
    after = seek doc after.pos ∧ pos ≤ after.pos ∧ after.pos ≤ doc.length :=
  Cursor.seek_of_reaches (Cursor.reaches_skipWhile _ q) hp

theorem getElem?_of_rest {b : Byte} {rest : Bytes} (h : (seek doc pos).rest = b :: rest) :
    doc[pos]? = some b := by
  rw [← Cursor.peek?_seek, Cursor.peek?, h]
  rfl

theorem length_of_rest (hp : pos ≤ doc.length) (h : (seek doc pos).rest = []) :
    pos = doc.length := by
  have := List.drop_eq_nil_iff.1 h
  omega

/-- A run of bytes that stand for themselves ends with the document, at its stop byte or at a
reference. -/
theorem plain_seek (stop : Byte) (hp : pos ≤ doc.length) :
    let after := (seek doc pos).skipWhile (Read.isPlain stop)
    ((seek doc pos).find? (isBoundary stop) = none ∧ after.pos = doc.length ∧
        (seek doc pos).rest.takeWhile (Read.isPlain stop) = doc.drop pos) ∨
      ∃ b, (seek doc pos).find? (isBoundary stop) = some after.pos ∧ doc[after.pos]? = some b ∧
        (b = stop ∨ b = .ampersand) := by
  intro after
  obtain ⟨hafter, -, hwithin⟩ := skipWhile_seek_eq (Read.isPlain stop) hp
  obtain ⟨hnone, hrest⟩ | ⟨b, rest, hsome, hrest, hb⟩ := find?_seek (p := isBoundary stop)
    (q := Read.isPlain stop) (by simp [isBoundary, Read.isPlain, bne]) doc pos
  · refine .inl ⟨hnone, length_of_rest hwithin (hafter ▸ hrest), ?_⟩
    have happend := List.takeWhile_append_dropWhile (p := Read.isPlain stop)
      (l := (seek doc pos).rest)
    rwa [show (seek doc pos).rest.dropWhile _ = [] from hrest, List.append_nil] at happend
  · refine .inr ⟨b, hsome, getElem?_of_rest (hafter ▸ hrest), ?_⟩
    simpa [isBoundary] using hb

theorem agrees_openQuote (hp : pos ≤ doc.length) :
    Agrees doc (openQuote doc : Work σ Unit) Read.openQuote pos :=
  (Agrees.look hp _).bind fun _ _ hb hp₁ => .ite
    (fun hquote => (agrees_next (lt_of_peek hb hquote)).bind fun _ _ _ hp₂ => .pure hp₂ _)
    fun _ => .fail hp₁ _

theorem run_missingQuote (hx : x.1.position ≤ doc.length) :
    (missingQuote doc : Work σ α) x = some (.error (.malformed .quoteUnclosed (some doc.length)),
      ({ x.1 with position := doc.length }, x.2)) := by
  rw [missingQuote, run_bind_ok (run_moveTo hx)]
  rfl

theorem agrees_literal (hp : pos ≤ doc.length) :
    Agrees doc (literal doc : Work σ Bytes) Read.literal pos := by
  refine (agrees_openQuote hp).bind fun _ p _ hp => .start <| .of_forward
    (.bind (Read.forward_upTo _) fun _ => .bind Read.forward_closeQuote fun _ => .pure _) hp ?_
  intro x hx
  refine ⟨x.1.scratch, ?_⟩
  subst hx
  obtain ⟨hafter, hle, hwithin⟩ := skipWhile_seek_eq (· != Byte.quote) hp
  rw [run_bind_ok (m := look doc _) rfl]
  obtain ⟨hnone, hrest⟩ | ⟨b, rest, hsome, hrest, -⟩ := find?_seek (p := (· == Byte.quote))
    (q := (· != Byte.quote)) (fun _ => rfl) doc x.1.position
  · have hend := length_of_rest hwithin (hafter ▸ hrest)
    simp only [hnone, run_missingQuote hp, Bind.bind, EStateM.bind, Read.upTo, Read.closeQuote,
      hrest, answer, hend]
  · simp only [hsome, Bind.bind, EStateM.bind, Read.upTo, Read.closeQuote, hrest, answer]
    exact (run_bind_ok (run_moveTo (Nat.le_succ_of_le hle))).trans (run_slice_skipWhile _ hp)

/-- The byte under the cursor begins a reference, whose expansion goes to the buffer. -/
theorem run_reference (hx : x.1.position < doc.length) :
    reference doc x = some (match Read.reference (seek doc (x.1.position + 1)) with
      | .ok name c => (.ok (), ({ x.1 with
          position := c.pos, scratch := Reference.expandInto x.1.scratch name }, x.2))
      | .error cause c =>
        (.error (.malformed cause (some c.pos)), ({ x.1 with position := c.pos }, x.2))) := by
  obtain ⟨hafter, hle, hwithin⟩ := skipWhile_seek_eq (· != Byte.semicolon) hx
  rw [reference, run_bind_ok (run_advance 1), run_bind_ok (m := here) rfl,
    run_bind_ok (m := look doc _) rfl, Read.reference]
  obtain ⟨hnone, hrest⟩ | ⟨b, rest, hsome, hrest, -⟩ := find?_seek (p := (· == Byte.semicolon))
    (q := (· != Byte.semicolon)) (fun _ => rfl) doc (x.1.position + 1)
  · simp only [hnone]
    rw [show (seek doc (x.1.position + 1)).rest.dropWhile _ = [] from hrest]
    rfl
  · simp only [hsome]
    rw [show (seek doc (x.1.position + 1)).rest.dropWhile _ = b :: rest from hrest]
    have hempty : ((seek doc (x.1.position + 1)).skipWhile (· != Byte.semicolon)).pos =
        x.1.position + 1 ↔
          ((seek doc (x.1.position + 1)).rest.takeWhile (· != Byte.semicolon)).isEmpty = true := by
      rw [List.isEmpty_iff_length_eq_zero]
      exact Nat.add_eq_left
    dsimp only
    by_cases h : ((seek doc (x.1.position + 1)).rest.takeWhile (· != Byte.semicolon)).isEmpty
    · rw [if_pos (hempty.2 h), if_pos h]
      rfl
    · rw [if_neg (mt hempty.1 h), if_neg h, run_bind_ok (run_slice_skipWhile _ hx)]
      exact (run_bind_ok (run_update _)).trans (run_moveTo (Nat.le_succ_of_le hle))

theorem run_gather (q : Byte → Bool) (hp : pos ≤ doc.length)
    (hx : x.1.position ≤ ((seek doc pos).skipWhile q).pos) :
    gather doc pos ((seek doc pos).skipWhile q).pos x = some (.ok (), ({ x.1 with
      position := ((seek doc pos).skipWhile q).pos
      scratch := x.1.scratch.append ((seek doc pos).rest.takeWhile q) }, x.2)) := by
  let y : Reader × σ :=
    ({ x.1 with scratch := x.1.scratch.append ((seek doc pos).rest.takeWhile q) }, x.2)
  rw [gather, run_bind_ok (run_slice_skipWhile q hp), run_bind_ok (run_collect _)]
  exact run_moveTo (x := y) hx

def decodedFrom (stop : Byte) (buffer : Buffer) (c : Cursor) : EStateM.Result Cause Cursor Bytes :=
  match Read.reference c with
  | .ok name c => Read.decoded stop (Reference.expandInto buffer name) c
  | .error cause c => .error cause c

theorem decoded_from (stop : Byte) (buffer : Buffer) (hp : pos ≤ doc.length) :
    let after := (seek doc pos).skipWhile (Read.isPlain stop)
    let plain := buffer.append ((seek doc pos).rest.takeWhile (Read.isPlain stop))
    Read.decoded stop buffer (seek doc pos) =
      if doc[after.pos]? = some .ampersand then decodedFrom stop plain (seek doc (after.pos + 1))
      else .ok plain.toList after := by
  intro after plain
  obtain ⟨hafter, -, hwithin⟩ := skipWhile_seek_eq (Read.isPlain stop) hp
  have hbyte : doc[after.pos]? = after.rest.head? := by
    rw [← Cursor.peek?_seek, ← hafter]
    rfl
  rw [Read.decoded_eq, hbyte]
  cases hrest : after.rest with
  | nil => rfl
  | cons b rest =>
    have hseek : (⟨after.pos + 1, rest⟩ : Cursor) = seek doc (after.pos + 1) := by
      have hdrop : doc.drop after.pos = b :: rest := (congrArg Cursor.rest hafter).symm.trans hrest
      rw [seek, ← List.drop_drop, hdrop]
      rfl
    simp only [List.head?_cons, Option.some.injEq, decodedFrom, ← hseek]
    cases Read.reference ⟨after.pos + 1, rest⟩ <;> rfl

/-- How decoding goes on from a reference, beside what is decoded: it fails where that fails, stops at
a stop byte with the bytes in the buffer, or misses one. -/
inductive Decoding (doc : Bytes) (stop : Byte) (missing : Nat → Work σ Unit)
    (left : Nat → Buffer → Reader × σ) :
    EStateM.Result Cause Cursor Bytes → Option (Except Error Unit × (Reader × σ)) → Prop
  | error {cause c scratch} : Decoding doc stop missing left (.error cause c)
      (some (.error (.malformed cause (some c.pos)), left c.pos scratch))
  | found {offset} {scratch : Buffer} : doc[offset]? = some stop →
      Decoding doc stop missing left (.ok scratch.toList (seek doc offset))
        (some (.ok (), left offset scratch))
  | missing {start} {scratch : Buffer} : start ≤ doc.length →
      Decoding doc stop missing left
        (.ok (scratch.toList ++ doc.drop start) (seek doc doc.length))
        (missing start (left start scratch))

theorem decoding_rounds {stop : Byte} (hs : stop ≠ .ampersand) (missing : Nat → Work σ Unit)
    (hb : doc[x.1.position]? = some .ampersand) (hn : doc.length - x.1.position < n) :
    Decoding doc stop missing (fun position scratch => ({ x.1 with position, scratch }, x.2))
      (decodedFrom stop x.1.scratch (seek doc (x.1.position + 1)))
      (rounds (decodeRound doc stop missing) n x) := by
  induction n generalizing x with
  | zero => omega
  | succ n ih =>
    have hlt := (List.getElem?_eq_some_iff.1 hb).1
    have hreference := run_reference hlt
    rw [decodedFrom]
    cases hr : Read.reference (seek doc (x.1.position + 1)) with
    | error cause c =>
      rw [hr] at hreference
      have hround : decodeRound doc stop missing x = _ := run_bind_error hreference
      rw [rounds_error hround]
      exact .error
    | ok name c =>
      rw [hr] at hreference
      obtain ⟨hc, hle, hwithin⟩ :=
        Cursor.seek_of_reaches (Read.strict_reference.forward.reaches hr) hlt
      generalize c.pos = p at hc hle hwithin
      subst hc
      have hround : decodeRound doc stop missing x = decodeRound doc stop missing x := rfl
      conv at hround =>
        rhs
        rw [decodeRound, run_bind_ok hreference, run_bind_ok (m := here) rfl,
          run_bind_ok (m := look doc _) rfl]
      simp only [Cursor.pos_seek] at hround
      simp only [decoded_from stop _ hwithin]
      obtain ⟨hafter, hstart, -⟩ := skipWhile_seek_eq (Read.isPlain stop) hwithin
      obtain ⟨hnone, hend, hall⟩ | ⟨b, hsome, hbyte, hb⟩ := plain_seek stop hwithin
      · rw [hnone] at hround
        rw [hafter, Cursor.pos_seek, hend, if_neg (by simp), hall, Buffer.toList_append,
          rounds_ending hround]
        exact .missing hwithin
      · rw [hsome] at hround
        rw [hbyte]
        dsimp only at hround ⊢
        let y : Reader × σ := ({ x.1 with
          position := p, scratch := Reference.expandInto x.1.scratch name }, x.2)
        rw [run_bind_ok (run_gather (x := y) _ hwithin hstart),
          run_bind_ok (run_byteAt hbyte)] at hround
        obtain rfl | rfl := hb
        · rw [rounds_last (hround.trans (by rw [bne_self_eq_false]; rfl)),
            if_neg (by simpa using hs), hafter]
          exact .found hbyte
        · rw [bne_iff_ne.2 hs.symm] at hround
          rw [if_pos rfl, rounds_again hround]
          let y' : Reader × σ := ({ x.1 with
            position := ((seek doc p).skipWhile (Read.isPlain stop)).pos
            scratch := y.1.scratch.append ((seek doc p).rest.takeWhile (Read.isPlain stop)) }, x.2)
          exact ih (x := y') hbyte (by simp only [y']; omega)

/-- Text may end with the document, so decoding it fails only for a reference. -/
theorem run_decode_text (hb : doc[x.1.position]? = some .ampersand) :
    ∃ scratch : Buffer, (decode doc .openAngle fun start => gather doc start doc.length) x =
      some (match decodedFrom .openAngle x.1.scratch (seek doc (x.1.position + 1)) with
        | .ok _ c => (.ok (), ({ x.1 with position := c.pos, scratch }, x.2))
        | .error cause c => (.error (.malformed cause (some c.pos)),
          ({ x.1 with position := c.pos, scratch }, x.2))) ∧
      ∀ bytes c, decodedFrom .openAngle x.1.scratch (seek doc (x.1.position + 1)) = .ok bytes c →
        scratch.toList = bytes ∧ c.pos ≤ doc.length := by
  have hdecoding := decoding_rounds (n := doc.length + 1) (show Byte.openAngle ≠ .ampersand by decide)
    (fun start => gather doc start doc.length) hb (by omega)
  generalize decodedFrom .openAngle x.1.scratch (seek doc (x.1.position + 1)) = out at hdecoding ⊢
  change Decoding doc .openAngle _ _ _ (decode doc .openAngle _ x) at hdecoding
  generalize decode doc .openAngle _ x = done at hdecoding ⊢
  cases hdecoding with
  | @error cause c scratch => exact ⟨scratch, rfl, nofun⟩
  | @found offset scratch hfound =>
    refine ⟨scratch, rfl, fun bytes c h => ?_⟩
    cases h
    exact ⟨rfl, Nat.le_of_lt (List.getElem?_eq_some_iff.1 hfound).1⟩
  | @missing start scratch hstart =>
    refine ⟨scratch.append (doc.drop start), ?_, fun bytes c h => ?_⟩
    · let y : Reader × σ := ({ x.1 with position := start, scratch }, x.2)
      let y' : Reader × σ := ({ y.1 with scratch := scratch.append (doc.drop start) }, y.2)
      have hslice : slice doc start doc.length y = some (.ok (doc.drop start), y) := by
        rw [run_slice hstart (Nat.le_refl _), List.take_length]
      rw [gather, run_bind_ok hslice, run_bind_ok (run_collect _)]
      exact run_moveTo (x := y') hstart
    · cases h
      exact ⟨Buffer.toList_append _ _, Nat.le_refl _⟩

theorem run_seek (stop : Byte) (hp : pos ≤ doc.length) :
    let after := (seek doc pos).skipWhile (Read.isPlain stop)
    let plain := (seek doc pos).rest.takeWhile (Read.isPlain stop)
    Read.run stop (seek doc pos) =
      if doc[after.pos]? = some .ampersand then
        match decodedFrom stop (Buffer.empty.append plain) (seek doc (after.pos + 1)) with
        | .ok bytes c => .ok (.transient bytes) c
        | .error cause c => .error cause c
      else .ok (.stable ⟨pos, plain⟩) after := by
  intro after plain
  obtain ⟨hafter, -, -⟩ := skipWhile_seek_eq (Read.isPlain stop) hp
  have hpeek : ((seek doc pos).skipWhile (Read.isPlain stop)).peek? = doc[after.pos]? := by
    rw [hafter, Cursor.peek?_seek]
  simp only [Read.run, hpeek, decoded_from stop .empty hp]
  by_cases hb : doc[after.pos]? = some .ampersand
  · rw [if_pos hb, if_pos hb, if_pos hb]
    generalize decodedFrom stop _ _ = out
    cases out <;> rfl
  · rw [if_neg hb, if_neg hb]
    rfl

theorem text_eq (c : Cursor) : Read.text c = match Read.run .openAngle c with
    | .ok v c => .ok (if v = .transient [] then .stable ⟨c.pos, []⟩ else v) c
    | .error cause c => .error cause c := by
  simp only [Read.text, Bind.bind, EStateM.bind]
  cases Read.run .openAngle c <;> rfl

theorem agrees_text (hp : pos ≤ doc.length) :
    Agrees doc (text doc : Work σ Span) Read.text pos := by
  refine .start <| .of_forward Read.forward_text hp fun x hx => ?_
  subst hx
  obtain ⟨-, hstart, -⟩ := skipWhile_seek_eq (Read.isPlain .openAngle) hp
  rw [run_bind_ok (m := look doc _) rfl, text_eq, run_seek .openAngle hp]
  obtain ⟨hnone, hend, -⟩ | ⟨b, hsome, hbyte, hb⟩ := plain_seek .openAngle hp
  · have hslice := run_slice_skipWhile (x := ({ x.1 with position := doc.length }, x.2))
      (Read.isPlain .openAngle) hp
    rw [hend] at hslice
    refine ⟨x.1.scratch, ?_⟩
    rw [hnone, hend, if_neg (by simp)]
    dsimp only
    rw [run_bind_ok (run_moveTo hp), run_bind_ok hslice]
    simp [answer, hend]
    rfl
  · rw [hsome, hbyte]
    dsimp only
    rw [run_bind_ok (run_byteAt hbyte)]
    obtain rfl | rfl := hb
    · refine ⟨x.1.scratch, ?_⟩
      rw [if_pos rfl, if_neg (by decide), run_bind_ok (run_moveTo hstart),
        run_bind_ok (run_slice_skipWhile _ hp)]
      rfl
    · let y : Reader × σ := ({ x.1 with scratch := .empty }, x.2)
      rw [if_neg (by decide), if_pos rfl, run_bind_ok run_reset,
        run_bind_ok (run_gather (x := y) _ hp hstart)]
      let y' : Reader × σ := ({ y.1 with
        position := ((seek doc x.1.position).skipWhile (Read.isPlain .openAngle)).pos
        scratch := Buffer.empty.append
          ((seek doc x.1.position).rest.takeWhile (Read.isPlain .openAngle)) }, x.2)
      obtain ⟨scratch, hdecode, hscratch⟩ := run_decode_text (x := y') hbyte
      refine ⟨scratch, ?_⟩
      change _ = some (answer x scratch (match (match decodedFrom .openAngle y'.1.scratch
        (seek doc (y'.1.position + 1)) with
          | .ok bytes c => EStateM.Result.ok (Span.transient bytes) c
          | .error cause c => .error cause c) with
        | .ok v c => .ok (if v = .transient [] then .stable ⟨c.pos, []⟩ else v) c
        | .error cause c => .error cause c))
      generalize decodedFrom .openAngle y'.1.scratch (seek doc (y'.1.position + 1)) = out
        at hdecode hscratch
      cases out with
      | error cause c =>
        rw [run_bind_error hdecode]
        rfl
      | ok bytes c =>
        obtain ⟨rfl, hc⟩ := hscratch bytes c rfl
        rw [run_bind_ok hdecode, run_bind_ok (m := reader) rfl]
        by_cases hempty : scratch.toList = []
        · rw [if_pos hempty, hempty, run_bind_ok (run_slice_empty hc)]
          rfl
        · rw [if_neg hempty]
          simp only [answer, Span.transient.injEq, hempty, if_false]
          rfl

/-- A value may not end with the document. -/
theorem run_decode_value (hb : doc[x.1.position]? = some .ampersand) :
    ∃ scratch : Buffer, (decode doc .quote fun _ => missingQuote doc) x =
      some (match decodedFrom .quote x.1.scratch (seek doc (x.1.position + 1)) with
        | .ok _ c => if c.pos < doc.length then (.ok (), ({ x.1 with position := c.pos, scratch }, x.2))
          else (.error (.malformed .quoteUnclosed (some c.pos)),
            ({ x.1 with position := c.pos, scratch }, x.2))
        | .error cause c => (.error (.malformed cause (some c.pos)),
          ({ x.1 with position := c.pos, scratch }, x.2))) ∧
      ∀ bytes c, decodedFrom .quote x.1.scratch (seek doc (x.1.position + 1)) = .ok bytes c →
        c = seek doc c.pos ∧ (c.pos < doc.length → scratch.toList = bytes) := by
  have hdecoding := decoding_rounds (n := doc.length + 1) (show Byte.quote ≠ .ampersand by decide)
    (fun _ => missingQuote doc) hb (by omega)
  generalize decodedFrom .quote x.1.scratch (seek doc (x.1.position + 1)) = out at hdecoding ⊢
  change Decoding doc .quote _ _ _ (decode doc .quote _ x) at hdecoding
  generalize decode doc .quote _ x = done at hdecoding ⊢
  cases hdecoding with
  | @error cause c scratch => exact ⟨scratch, rfl, nofun⟩
  | @found offset scratch hfound =>
    refine ⟨scratch, ?_, fun bytes c h => ?_⟩
    · exact congrArg some (if_pos (List.getElem?_eq_some_iff.1 hfound).1).symm
    · cases h
      exact ⟨rfl, fun _ => rfl⟩
  | @missing start scratch hstart =>
    refine ⟨scratch, ?_, fun bytes c h => ?_⟩
    · rw [run_missingQuote hstart]
      simp only [Cursor.pos_seek, Nat.lt_irrefl, if_false]
    · cases h
      exact ⟨rfl, fun h => absurd h (Nat.lt_irrefl _)⟩

theorem closeQuote_seek (doc : Bytes) (pos : Nat) : Read.closeQuote (seek doc pos) =
    if pos < doc.length then .ok () (seek doc (pos + 1))
    else .error .quoteUnclosed (seek doc pos) := by
  by_cases hlt : pos < doc.length
  · obtain ⟨b, hrest, -⟩ := Cursor.rest_seek_ne_nil hlt
    rw [if_pos hlt, Read.closeQuote, hrest]
    rfl
  · rw [if_neg hlt, Read.closeQuote, show (seek doc pos).rest = [] from
      List.drop_eq_nil_of_le (Nat.le_of_not_lt hlt)]

theorem closed_run_eq (c : Cursor) :
    (do let v ← Read.run .quote; Read.closeQuote; return v : Read Span) c =
      match Read.run .quote c with
      | .ok v c => match Read.closeQuote c with
        | .ok _ c => .ok v c
        | .error cause c => .error cause c
      | .error cause c => .error cause c := by
  simp only [Bind.bind, EStateM.bind]
  cases Read.run .quote c with
  | ok v c =>
    cases hquote : Read.closeQuote c with
    | ok =>
      simp only [hquote]
      rfl
    | error => simp only [hquote]
  | error cause c => rfl

theorem agrees_value (hp : pos ≤ doc.length) :
    Agrees doc (value doc : Work σ Span) Read.value pos := by
  refine (agrees_openQuote hp).bind fun _ p _ hp => .start <| .of_forward
    (.bind (Read.forward_run _) fun _ => .bind Read.forward_closeQuote fun _ => .pure _) hp ?_
  intro x hx
  subst hx
  obtain ⟨hafter, hstart, -⟩ := skipWhile_seek_eq (Read.isPlain .quote) hp
  rw [run_bind_ok (m := look doc _) rfl]
  rw [closed_run_eq, run_seek .quote hp]
  obtain ⟨hnone, hend, -⟩ | ⟨b, hsome, hbyte, hb⟩ := plain_seek .quote hp
  · refine ⟨x.1.scratch, ?_⟩
    rw [hnone, hend, if_neg (by simp)]
    dsimp only
    rw [run_missingQuote hp, hafter, hend, closeQuote_seek, if_neg (Nat.lt_irrefl _)]
    rfl
  · have hlt := (List.getElem?_eq_some_iff.1 hbyte).1
    rw [hsome, hbyte]
    dsimp only
    rw [run_bind_ok (run_byteAt hbyte)]
    obtain rfl | rfl := hb
    · refine ⟨x.1.scratch, ?_⟩
      rw [if_pos rfl, if_neg (by decide), run_bind_ok (run_moveTo (Nat.le_succ_of_le hstart)),
        run_bind_ok (run_slice_skipWhile _ hp), hafter]
      dsimp only
      rw [closeQuote_seek, if_pos hlt]
      rfl
    · let y : Reader × σ := ({ x.1 with scratch := .empty }, x.2)
      let y' : Reader × σ := ({ y.1 with
        position := ((seek doc x.1.position).skipWhile (Read.isPlain .quote)).pos
        scratch := Buffer.empty.append
          ((seek doc x.1.position).rest.takeWhile (Read.isPlain .quote)) }, x.2)
      rw [if_neg (by decide), if_pos rfl, run_bind_ok run_reset,
        run_bind_ok (run_gather (x := y) _ hp hstart)]
      obtain ⟨scratch, hdecode, hscratch⟩ := run_decode_value (x := y') hbyte
      refine ⟨scratch, ?_⟩
      change _ = some (answer x scratch (match (match decodedFrom .quote y'.1.scratch
        (seek doc (y'.1.position + 1)) with
          | .ok bytes c => EStateM.Result.ok (Span.transient bytes) c
          | .error cause c => .error cause c) with
        | .ok v c => match Read.closeQuote c with
          | .ok _ c => EStateM.Result.ok v c
          | .error cause c => .error cause c
        | .error cause c => .error cause c))
      generalize decodedFrom .quote y'.1.scratch (seek doc (y'.1.position + 1)) = out
        at hdecode hscratch
      cases out with
      | error cause c =>
        rw [run_bind_error hdecode]
        rfl
      | ok bytes c =>
        obtain ⟨hc, hbytes⟩ := hscratch bytes c rfl
        dsimp only at hdecode ⊢
        rw [hc, closeQuote_seek]
        by_cases hlt : c.pos < doc.length
        · obtain rfl := hbytes hlt
          rw [if_pos hlt] at hdecode ⊢
          rw [run_bind_ok hdecode, run_bind_ok (run_advance 1), run_bind_ok (m := reader) rfl]
          rfl
        · rw [if_neg hlt] at hdecode ⊢
          rw [run_bind_error hdecode]
          rfl

theorem agrees_attr (hp : pos ≤ doc.length) :
    Agrees doc (attr doc : Work σ (QName × Span)) Read.attr pos :=
  (agrees_qname hp).bind fun _ _ _ hp => (Agrees.look hp _).bind fun _ _ hb hp => .ite
    (fun hequals => (agrees_next (lt_of_peek hb hequals)).bind fun _ _ _ hp =>
      (agrees_value hp).bind fun _ _ _ hp => .pure hp _)
    fun _ => .fail hp _

/-! Declarations, comments, document types and byte order marks. -/

theorem agrees_expectName (hp : pos ≤ doc.length) (expected : Option Bytes) (found : Bytes) :
    Agrees doc (expectName expected found : Work σ Unit) (Read.expectName expected found) pos := by
  cases expected with
  | none => exact .pure hp _
  | some wanted => exact .ite (fun _ => .pure hp _) fun _ => .fail hp _

theorem agrees_comment (hp : pos ≤ doc.length) :
    Agrees doc (comment doc : Work σ Unit) Read.comment pos := by
  refine .of_forward Read.forward_comment hp fun x hx => ⟨x.1.scratch, ?_⟩
  subst hx
  rw [comment, run_bind_ok (m := look doc _) rfl, Read.comment, Cursor.findText?]
  cases Cursor.occurrence? (utf8 "--") 0 (seek doc x.1.position).rest with
  | none =>
    have hlength : x.1.position + (seek doc x.1.position).rest.length = doc.length := by
      rw [seek, List.length_drop]
      omega
    rw [Cursor.advance_seek, hlength]
    exact run_bind_ok (run_moveTo hp)
  | some n =>
    let y : Reader × σ := ({ x.1 with position := x.1.position + n + 2 }, x.2)
    dsimp only [Option.map_some, Cursor.pos_seek]
    rw [run_bind_ok (run_moveTo (by omega)), run_bind_ok (m := look doc _) rfl, Cursor.advance_seek,
      ← Nat.add_assoc]
    by_cases hclose : (seek doc (x.1.position + n + 2)).peek? = some .closeAngle
    · rw [if_pos hclose, if_pos hclose]
      rfl
    · rw [if_neg hclose, if_neg hclose]
      rfl

theorem agrees_identifier (hp : pos ≤ doc.length) :
    Agrees doc (identifier doc : Work σ Identifier) Read.identifier pos := by
  refine .of_forward Read.forward_identifier hp fun x hx => ⟨x.1.scratch, ?_⟩
  subst hx
  have hhas := has_seek doc x.1.position 6
  rw [identifier, run_bind_ok (m := look doc _) rfl, Read.identifier]
  by_cases hshort : (seek doc x.1.position).remains < 6
  · rw [if_pos hshort, if_pos (by simpa using mt hhas.1 (not_not_intro hshort))]
    rfl
  · rw [if_neg hshort, if_neg (by simpa using hhas.2 hshort), run_bind_ok (m := look doc _) rfl]
    split
    · rw [Cursor.advance_seek]
      rfl
    · rw [run_bind_ok (m := look doc _) rfl]
      split
      · rw [Cursor.advance_seek]
        rfl
      · rfl

theorem agrees_gap (hp : pos ≤ doc.length) : Agrees doc (gap doc : Work σ Unit) Read.gap pos :=
  (agrees_require hp _).bind fun _ _ _ hp => (agrees_skipBlank hp).bind fun _ _ _ hp =>
    agrees_require hp _

theorem agrees_doctypeUri (hp : pos ≤ doc.length) :
    Agrees doc (doctypeUri doc : Work σ (Option Bytes)) Read.doctypeUri pos :=
  (Agrees.look hp _).bind fun _ _ _ hp => .ite (fun _ => .pure hp _) fun _ =>
    (agrees_literal hp).bind fun _ _ _ hp => (agrees_gap hp).bind fun _ _ _ hp =>
      (Agrees.look hp _).bind fun _ _ _ hp => .ite (fun _ => .pure hp _) fun _ => .fail hp _

/-- What ends the identifiers of a document type is there to pass. -/
theorem lt_of_doctypeUri {p p' : Nat} {uri : Option Bytes}
    (h : Read.doctypeUri (seek doc p) = .ok uri (seek doc p')) : p' < doc.length := by
  have key {c : Cursor} {b : Option Byte} {a : Option Bytes}
      (hb : c.peek? = b) (hclose : b = some .closeAngle)
      (hc : (pure a : Read (Option Bytes)) c = .ok uri (seek doc p')) : p' < doc.length := by
    injection hc with _ hc
    subst hc
    exact Cursor.lt_of_peek? (hb.trans hclose)
  obtain ⟨b, c, hb, h⟩ := Read.bind_eq_ok h
  injection hb with hb hc
  subst hc
  split at h
  · exact key hb (by assumption) h
  · obtain ⟨_, _, -, h⟩ := Read.bind_eq_ok h
    obtain ⟨_, c, -, h⟩ := Read.bind_eq_ok h
    obtain ⟨b, c', hb, h⟩ := Read.bind_eq_ok h
    injection hb with hb hc
    subst hc
    split at h
    · exact key hb (by assumption) h
    · cases h

theorem agrees_doctype (hp : pos ≤ doc.length) :
    Agrees doc (doctype doc : Work σ Doctype) Read.doctype pos :=
  (agrees_name hp).bind fun _ _ _ hp => (agrees_skipBlank hp).bind fun _ _ _ hp =>
    (agrees_identifier hp).bind fun _ _ _ hp => (agrees_gap hp).bind fun _ _ _ hp =>
      (agrees_literal hp).bind fun _ _ _ hp => (agrees_gap hp).bind fun _ _ _ hp =>
        (agrees_doctypeUri hp).bind fun _ _ huri _ => (agrees_pass (lt_of_doctypeUri huri)).bind
          fun _ _ _ hp => .pure hp _

theorem forward_encoding : Read.Forward Read.encoding := by
  intro c
  unfold Read.encoding
  split
  · exact .refl c
  · rename_i hlong
    have hlong : 4 ≤ c.rest.length := (c.has_iff 4).1 (by simp at hlong; exact hlong.1)
    split
    · exact Cursor.reaches_advance (by omega)
    · exact .refl c

theorem agrees_encoding (hp : pos ≤ doc.length) :
    Agrees doc (encoding doc : Work σ Unit) Read.encoding pos := by
  refine .of_forward forward_encoding hp fun x hx => ⟨x.1.scratch, ?_⟩
  subst hx
  have hhas := has_seek doc x.1.position 4
  rw [encoding, run_bind_ok (m := look doc _) rfl, Read.encoding]
  by_cases hshort : (seek doc x.1.position).remains < 4
  · rw [if_pos hshort, if_pos (by simp [mt hhas.1 (not_not_intro hshort)])]
    rfl
  · rw [if_neg hshort, run_bind_ok (m := look doc _) rfl, hhas.2 hshort]
    by_cases hopen : (seek doc x.1.position).peek? = some .openAngle
    · rw [if_pos hopen, if_pos (by simp [hopen])]
      rfl
    · rw [if_neg hopen, if_neg (by simp [hopen]), run_bind_ok (m := look doc _) rfl]
      split
      · rw [Cursor.advance_seek]
        rfl
      · rfl

end Reader
end XmlStream
