import XmlStream.Proofs.Reading
/-! Runs, quoted values and attributes: what is read of them and what it decodes to. A run without a
reference is the slice that was read, and no reference decodes to nothing. -/
namespace XmlStream

namespace Grammar

theorem Run.plains {stop : Byte} {u r v : Bytes} (hu : ∀ b ∈ u, Read.isPlain stop b = true)
    (hr : Run stop r v) : Run stop (u ++ r) (u ++ v) := by
  induction u with
  | nil => exact hr
  | cons b u ih =>
    have hb : b ≠ stop ∧ b ≠ .ampersand := by simpa [Read.isPlain] using hu b (by simp)
    exact .plain hb.1 hb.2 (ih fun c hc => hu c (List.mem_cons_of_mem b hc))

/-- A run is plain to its end or to its first reference. -/
theorem Run.split {stop : Byte} {w v : Bytes} (h : Run stop w v) :
    ∃ u, (∀ b ∈ u, Read.isPlain stop b = true) ∧ (w = u ∧ v = u ∨
      ∃ n r v', w = u ++ .ampersand :: (n ++ .semicolon :: r) ∧ n ≠ [] ∧ .semicolon ∉ n ∧
        Run stop r v' ∧ v = u ++ (Reference.expand n ++ v')) := by
  induction h with
  | nil => exact ⟨[], by simp, .inl ⟨rfl, rfl⟩⟩
  | @plain b r v hs ha _ ih =>
    obtain ⟨u, hu, h⟩ := ih
    refine ⟨b :: u, ?_, ?_⟩
    · intro c hc
      obtain rfl | hc := List.mem_cons.1 hc
      · simp [Read.isPlain, hs, ha]
      · exact hu c hc
    · obtain ⟨rfl, rfl⟩ | ⟨n, r, v', rfl, hn, hm, hr, rfl⟩ := h
      · exact .inl ⟨rfl, rfl⟩
      · exact .inr ⟨n, r, v', rfl, hn, hm, hr, rfl⟩
  | @reference n r v hn hm hr _ => exact ⟨[], by simp, .inr ⟨n, r, v, rfl, hn, hm, hr, rfl⟩⟩

theorem Run.append {stop : Byte} {w w' v v' : Bytes} (h : Run stop w v) (h' : Run stop w' v') :
    Run stop (w ++ w') (v ++ v') := by
  induction h with
  | nil => exact h'
  | plain hs ha _ ih => exact .plain hs ha ih
  | reference hn hm _ ih => simpa using Run.reference hn hm ih

theorem expand_ne_nil {name : Bytes} (h : name ≠ []) : Reference.expand name ≠ [] := by
  unfold Reference.expand
  split
  · simp
  · split
    · exact String.utf8EncodeChar_ne_nil
    · exact h

theorem Run.eq_nil {stop : Byte} {w : Bytes} (h : Run stop w []) : w = [] := by
  obtain ⟨u, -, ⟨rfl, rfl⟩ | ⟨n, r, v, rfl, hn, -, -, hv⟩⟩ := h.split
  · rfl
  · simp [expand_ne_nil hn] at hv

end Grammar
namespace Read
open Grammar
variable {α : Type}

theorem reads_reference : Reads reference fun _ w n _ =>
    w = n ++ [.semicolon] ∧ n ≠ [] ∧ .semicolon ∉ n := by
  intro c a c'
  obtain ⟨pos, text⟩ := c
  unfold reference
  constructor
  · intro h
    simp only at h
    split at h
    · cases h
    · rename_i b rest hr
      split at h <;> cases h
      rename_i hn
      obtain ⟨hs, hw, he⟩ := span_iff.1 ⟨rfl, hr⟩
      rw [all_ne_iff] at hw
      obtain rfl : b = .semicolon := by simpa using he b rfl
      refine ⟨_, rest, by rw [List.append_assoc]; exact hs, ?_, rfl, by simpa using hn, hw⟩
      rw [List.length_append, ← Nat.add_assoc]
      rfl
  · rintro ⟨w, rest, hs, rfl, rfl, hn, hm⟩
    obtain rfl : text = a ++ .semicolon :: rest := by simpa using hs
    have hr : (Byte.semicolon :: rest).head? = some .semicolon := rfl
    obtain ⟨ht, hd⟩ := span_iff.2 ⟨rfl, all_ne_iff.2 hm, stopped_iff.2 (.inr hr)⟩
    simp [ht, hd, hn, Nat.add_assoc]

theorem eq_stop {stop b : Byte} (h : isPlain stop b = false) (ha : b ≠ .ampersand) : b = stop := by
  simpa [isPlain, ha] using h

/-! Decoding, one byte or reference at a time. -/

theorem append_append (buffer : Buffer) (u v : Bytes) :
    (buffer.append u).append v = buffer.append (u ++ v) := by
  simp [Buffer.append, ← Array.toList_inj]

theorem decoded_eq (stop : Byte) (buffer : Buffer) (c : Cursor) :
    decoded stop buffer c =
      match (c.skipWhile (isPlain stop)).rest with
      | [] => .ok (buffer.append (c.rest.takeWhile (isPlain stop))).toList
          (c.skipWhile (isPlain stop))
      | b :: rest =>
        if b = .ampersand then
          match reference ⟨(c.skipWhile (isPlain stop)).pos + 1, rest⟩ with
          | .error cause c' => .error cause c'
          | .ok name c' => decoded stop
              (Reference.expandInto (buffer.append (c.rest.takeWhile (isPlain stop))) name) c'
        else .ok (buffer.append (c.rest.takeWhile (isPlain stop))).toList
          (c.skipWhile (isPlain stop)) := by
  rw [decoded]
  split
  · rename_i hr
    rw [hr]
  · rename_i b rest hr
    rw [hr]
    by_cases hb : b = .ampersand
    · simp only [hb, if_true]
      split <;> rename_i he <;> rw [he]
    · simp only [hb, if_false]

theorem decoded_stop {stop : Byte} {buffer : Buffer} {pos : Nat} {rest : Bytes}
    (hs : stop ≠ .ampersand) (h : rest = [] ∨ rest.head? = some stop) :
    decoded stop buffer ⟨pos, rest⟩ = .ok buffer.toList ⟨pos, rest⟩ := by
  rw [decoded_eq]
  obtain rfl | h := h
  · simp [Cursor.skipWhile]
  · obtain ⟨r, rfl⟩ := List.head?_eq_some_iff.1 h
    simp [Cursor.skipWhile, isPlain, hs]

theorem decoded_plain {stop b : Byte} {buffer : Buffer} {pos : Nat} {r : Bytes}
    (hb : isPlain stop b = true) :
    decoded stop buffer ⟨pos, b :: r⟩ = decoded stop (buffer.append [b]) ⟨pos + 1, r⟩ := by
  have hc : Cursor.skipWhile ⟨pos, b :: r⟩ (isPlain stop)
      = Cursor.skipWhile ⟨pos + 1, r⟩ (isPlain stop) := by
    simp [Cursor.skipWhile, hb]; omega
  rw [decoded_eq, decoded_eq]
  simp only [hc, List.takeWhile_cons, hb, if_true, append_append, List.singleton_append]

theorem decoded_ampersand {stop : Byte} {buffer : Buffer} {pos : Nat} {r : Bytes} :
    decoded stop buffer ⟨pos, .ampersand :: r⟩ =
      match reference ⟨pos + 1, r⟩ with
      | .error cause c' => .error cause c'
      | .ok name c' => decoded stop (Reference.expandInto buffer name) c' := by
  have ht : (Byte.ampersand :: r).takeWhile (isPlain stop) = [] := by simp [isPlain]
  have hc : Cursor.skipWhile ⟨pos, .ampersand :: r⟩ (isPlain stop) = ⟨pos, .ampersand :: r⟩ := by
    simp [Cursor.skipWhile, isPlain]
  rw [decoded_eq, hc, ht]
  simp [Buffer.append]

/-- Decoding answers for a run, and only where it ends. -/
theorem decoded_of_run {stop : Byte} {w v : Bytes} (h : Run stop w v) (hs : stop ≠ .ampersand)
    {rest : Bytes} (hr : rest = [] ∨ rest.head? = some stop) (buffer : Buffer) (pos : Nat) :
    decoded stop buffer ⟨pos, w ++ rest⟩ =
      .ok (buffer.toList ++ v) ⟨pos + w.length, rest⟩ := by
  induction h generalizing buffer pos with
  | nil => simpa using decoded_stop hs hr
  | @plain b r v hb ha _ ih =>
    rw [List.cons_append, decoded_plain (by simp [isPlain, hb, ha]), ih]
    simp [Nat.add_comm, Nat.add_left_comm]
  | @reference n r v hn hm _ ih =>
    have he : reference ⟨pos + 1, n ++ Byte.semicolon :: r ++ rest⟩
        = .ok n ⟨pos + 1 + (n ++ [Byte.semicolon]).length, r ++ rest⟩ :=
      (reads_reference _ _ _).2 ⟨_, _, by simp, rfl, rfl, hn, hm⟩
    rw [List.cons_append, decoded_ampersand, he]
    simp only
    rw [ih]
    simp [Reference.expandInto, Nat.add_comm, Nat.add_left_comm]

theorem run_of_decoded {stop : Byte} {buffer : Buffer} {c c' : Cursor} {a : Bytes}
    (h : decoded stop buffer c = .ok a c') : ∃ w v, c.rest = w ++ c'.rest ∧
      c'.pos = c.pos + w.length ∧ Run stop w v ∧ a = buffer.toList ++ v ∧
      (c'.rest = [] ∨ c'.rest.head? = some stop) := by
  fun_induction decoded stop buffer c with
  | case1 buffer c plain here hr =>
    simp only [EStateM.Result.ok.injEq] at h
    obtain ⟨rfl, rfl⟩ := h
    obtain ⟨hs, hu, -⟩ := (span_iff (s := c.rest)).1 ⟨rfl, hr⟩
    exact ⟨_, _, hs.trans (by rw [hr]), rfl, by simpa using Run.plains hu .nil, by simp [plain],
      .inl hr⟩
  | case2 => cases h
  | case3 buffer c plain here rest name m he hr ih =>
    obtain ⟨w, v, hw, hp, hv, rfl, hend⟩ := ih h
    obtain ⟨_, k, rfl, rfl, rfl, hn, hm⟩ := (reads_reference _ _ _).1 he
    obtain ⟨hs, hu, -⟩ := (span_iff (s := c.rest)).1 ⟨rfl, hr⟩
    obtain rfl : k = w ++ c'.rest := hw
    refine ⟨_, _, ?_, ?_, Run.plains hu (.reference hn hm hv), ?_, hend⟩
    · exact hs.trans (by simp)
    · rw [hp]
      simp [here, Cursor.skipWhile]; omega
    · simp [plain, Reference.expandInto]
  | case4 buffer c plain here b rest hr hb =>
    simp only [EStateM.Result.ok.injEq] at h
    obtain ⟨rfl, rfl⟩ := h
    obtain ⟨hs, hu, hx⟩ := (span_iff (s := c.rest)).1 ⟨rfl, hr⟩
    have hx := eq_stop (hx b rfl) hb
    exact ⟨_, _, hs.trans (by rw [hr]), rfl, by simpa using Run.plains hu .nil, by simp [plain],
      .inr (by rw [hr, hx]; rfl)⟩

/-- What a run at an offset is handed over as. -/
def Spelt (stop : Byte) : Shape Span := fun pos w v rest =>
  (rest = [] ∨ rest.head? = some stop) ∧ ∃ bytes, Run stop w bytes ∧
    v = if .ampersand ∈ w then .transient bytes else .stable ⟨pos, w⟩

theorem ampersand_not_mem {stop : Byte} {u : Bytes} (hu : ∀ b ∈ u, isPlain stop b = true) :
    .ampersand ∉ u := fun h => by simpa [isPlain] using hu _ h

/-- A run has a reference exactly when one stands behind its plain beginning. -/
theorem ampersand_ahead_iff {stop : Byte} (hs : stop ≠ .ampersand) {w v rest : Bytes}
    (hr : rest = [] ∨ rest.head? = some stop) (h : Run stop w v) :
    ((w ++ rest).dropWhile (isPlain stop)).head? = some .ampersand ↔ .ampersand ∈ w := by
  obtain ⟨u, hu, ⟨hw, -⟩ | ⟨n, r, v', hw, -⟩⟩ := h.split
  · rw [hw, List.dropWhile_append_of_pos hu]
    have ha := ampersand_not_mem hu
    obtain rfl | hr := hr
    · simp [ha]
    · obtain ⟨t, rfl⟩ := List.head?_eq_some_iff.1 hr
      simp [isPlain, hs, ha]
  · rw [hw, List.append_assoc, List.dropWhile_append_of_pos hu]
    simp [isPlain]

theorem plain_of_run {stop : Byte} {w v : Bytes} (h : Run stop w v) (ha : .ampersand ∉ w) :
    v = w ∧ ∀ b ∈ w, isPlain stop b = true := by
  obtain ⟨u, hu, ⟨rfl, rfl⟩ | ⟨n, r, v', rfl, -⟩⟩ := h.split
  · exact ⟨rfl, hu⟩
  · simp at ha

theorem reads_run {stop : Byte} (hs : stop ≠ .ampersand) : Reads (run stop) (Spelt stop) := by
  intro c a c'
  obtain ⟨pos, text⟩ := c
  constructor
  · intro h
    unfold run at h
    simp only at h
    split at h <;> rename_i hp <;> simp only [Cursor.skipWhile, Cursor.peek?] at hp
    · split at h <;> cases h
      rename_i bytes he
      obtain ⟨w, v, hw, hq, hv, ha, hend⟩ := run_of_decoded he
      obtain rfl : text = w ++ c'.rest := hw
      obtain rfl : bytes = v := ha
      rw [ampersand_ahead_iff hs hend hv] at hp
      exact ⟨w, c'.rest, rfl, by rw [← hq], hend, _, hv, (if_pos hp).symm⟩
    · cases h
      obtain ⟨hw, hu, hend⟩ := (span_iff (p := isPlain stop) (s := text)).1 ⟨rfl, rfl⟩
      refine ⟨_, _, hw, rfl, ?_, _, by simpa using Run.plains hu .nil, ?_⟩
      · cases hd : text.dropWhile (isPlain stop) with
        | nil => exact .inl rfl
        | cons b r =>
          rw [hd] at hend hp
          obtain rfl := eq_stop (hend b rfl) fun hb => hp (congrArg some hb)
          exact .inr rfl
      · rw [if_neg (ampersand_not_mem hu)]
  · rintro ⟨w, rest, hw, rfl, hend, bytes, hb, rfl⟩
    obtain rfl : text = w ++ rest := hw
    have ha := ampersand_ahead_iff hs hend hb
    unfold run
    by_cases h : .ampersand ∈ w
    · simp [Cursor.skipWhile, Cursor.peek?, ha.2 h, h, decoded_of_run hb hs hend .empty pos]
    · obtain ⟨rfl, hw⟩ := plain_of_run hb h
      have hr : ∀ b, rest.head? = some b → isPlain stop b = false := by
        intro b hb
        obtain rfl | hr := hend
        · cases hb
        · obtain rfl : b = stop := Option.some.inj (hb.symm.trans hr)
          simp [isPlain]
      obtain ⟨ht, hd⟩ := span_iff.2 ⟨rfl, hw, hr⟩
      rw [hd] at ha
      simp [Cursor.skipWhile, Cursor.peek?, hd, mt ha.1 h, h, ht]

/-- What decodes to nothing has nothing in it, so no text is handed over empty and decoded. -/
theorem Spelt.ne_empty {stop : Byte} {pos : Nat} {w rest : Bytes} {v : Span}
    (h : Spelt stop pos w v rest) : v ≠ .transient [] := by
  obtain ⟨-, bytes, hb, rfl⟩ := h
  intro he
  split at he <;> cases he
  rename_i ha
  rw [hb.eq_nil] at ha
  cases ha

theorem reads_text : Reads text (Spelt .openAngle) :=
  ((reads_run (by decide)).bind fun _ => .position fun _ =>
    reads_pure _).congr fun pos w v rest => by
    constructor
    · rintro ⟨u, t, _, rfl, ht, rfl, rfl⟩
      rw [if_neg ht.ne_empty, List.append_nil]
      exact ht
    · intro h
      exact ⟨w, v, [], by simp, h, rfl, (if_neg h.ne_empty).symm⟩

theorem Reads.openQuote {r : Read α} {P : Shape α} (hr : Reads r P) :
    Reads (openQuote >>= fun _ => r) fun pos w a rest =>
      ∃ v, w = .quote :: v ∧ v ++ rest ≠ [] ∧ P (pos + 1) v a rest := by
  have h : (Read.openQuote >>= fun _ => r) = peek? >>= fun b =>
      if b = some .quote then Read.next >>= fun _ => r else throw .valueUnquoted := by
    simp only [Read.openQuote, bind_assoc]
    congr 1
    funext b
    split
    · simp
    · rfl
  rw [h]
  refine (Reads.peek fun _ => (Reads.next fun _ => hr).ite (reads_throw _)).congr
    fun pos w a rest => ?_
  constructor
  · rintro (⟨hq, x, v, y, rfl, hy, hP⟩ | ⟨-, h⟩)
    · obtain rfl : x = .quote := by simpa using hq
      have hv : v ++ rest ≠ [] := fun he => by simp [he] at hy
      exact ⟨v, rfl, hv, hP⟩
    · exact h.elim
  · rintro ⟨v, rfl, hv, hP⟩
    obtain ⟨y, hy⟩ : ∃ y, (v ++ rest).head? = some y :=
      ⟨_, List.head?_eq_some_head hv⟩
    exact .inl ⟨rfl, _, v, y, rfl, hy, hP⟩

theorem reads_closeQuote : Reads closeQuote fun _ w _ _ => ∃ x, w = [x] :=
  reads_byte (fun _ _ _ => rfl) fun _ _ _ h => by cases h

def Quoted : Nat → Bytes → Span → Prop := fun pos w v => ∃ raw bytes, w = quoted raw ∧
  Run .quote raw bytes ∧
    v = if .ampersand ∈ raw then .transient bytes else .stable ⟨pos + 1, raw⟩

theorem reads_value : Reads value fun pos w v _ => Quoted pos w v :=
  (Reads.openQuote ((reads_run (by decide)).bind fun _ => reads_closeQuote.bind fun _ =>
    reads_pure _)).congr fun pos w v rest => by
      constructor
      · rintro ⟨t, rfl, -, raw, _, _, rfl, ⟨hend, bytes, hb, rfl⟩, hclose⟩
        obtain ⟨_, _, _, rfl, ⟨x, rfl⟩, rfl, rfl⟩ := hclose
        obtain rfl : x = .quote := by simpa using hend
        exact ⟨raw, bytes, by simp [quoted], hb, rfl⟩
      · rintro ⟨raw, bytes, rfl, hb, rfl⟩
        refine ⟨raw ++ [.quote], rfl, by simp, raw, _, [.quote], rfl,
          ⟨.inr rfl, bytes, hb, rfl⟩, ?_⟩
        exact ⟨[.quote], (), [], rfl, ⟨_, rfl⟩, rfl, rfl⟩

theorem reads_literal : Reads literal fun _ w a _ => w = quoted a ∧ .quote ∉ a :=
  (Reads.openQuote ((reads_upTo _).bind fun _ => reads_closeQuote.bind fun _ =>
    reads_pure _)).congr fun pos w v rest => by
      constructor
      · rintro ⟨t, rfl, -, raw, _, _, rfl, ⟨hq, hend, rfl⟩, hclose⟩
        obtain ⟨_, _, _, rfl, ⟨x, rfl⟩, rfl, rfl⟩ := hclose
        obtain rfl : x = .quote := by simpa using hend
        exact ⟨by simp [quoted], hq⟩
      · rintro ⟨rfl, hq⟩
        refine ⟨v ++ [.quote], rfl, by simp, v, _, [.quote], rfl, ⟨hq, .inr rfl, rfl⟩, ?_⟩
        exact ⟨[.quote], (), [], rfl, ⟨_, rfl⟩, rfl, rfl⟩

theorem reads_attr : Reads attr fun pos w a _ => IsQName a.1 ∧
    ∃ v, w = a.1.text ++ .equals :: v ∧ Quoted (pos + a.1.text.length + 1) v a.2 :=
  (reads_qname.bind fun _ => .peek fun _ => (Reads.next fun _ => reads_value.bind fun _ =>
    reads_pure _).ite (reads_throw _)).congr fun pos w a rest => by
      constructor
      · rintro ⟨_, q, t, rfl, ⟨rfl, hq, -⟩, ⟨he, h⟩ | ⟨-, h⟩⟩
        · obtain ⟨x, v, y, rfl, -, u, _, _, rfl, hv, rfl, rfl⟩ := h
          obtain rfl : x = .equals := by simpa using he
          exact ⟨hq, u, by simp, hv⟩
        · exact h.elim
      · rintro ⟨hq, v, rfl, hv⟩
        obtain ⟨y, hy⟩ : ∃ y, (v ++ rest).head? = some y := by
          obtain ⟨raw, bytes, rfl, -⟩ := hv
          exact ⟨_, rfl⟩
        have hapart : Apart (.equals :: v ++ rest) := forall_head (by decide)
        have hcolon : (Byte.equals :: v ++ rest).head? ≠ some .colon :=
          fun h => absurd (Option.some.inj h) (by decide)
        refine ⟨_, a.1, .equals :: v, rfl, ⟨rfl, hq, by simp, hapart, fun _ => hcolon⟩,
          .inl ⟨rfl, _, v, y, rfl, hy, ?_⟩⟩
        exact ⟨v, a.2, [], by simp, hv, rfl, rfl⟩

end Read
end XmlStream
