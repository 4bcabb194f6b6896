import XmlStream.Document
/-! Causes of failure. Elements that are still open are a cause in one place only, at the end of a
document: no construct fails for it. -/
namespace XmlStream.Read

variable {α β : Type} {P : Cause → Prop}

def Raises (P : Cause → Prop) (r : Read α) : Prop := ∀ c e c', r c = .error e c' → P e

theorem Raises.of_ok {r : Read α} (h : ∀ c, ∃ a c', r c = .ok a c') : Raises P r := by
  intro c e c' he
  obtain ⟨a, m, ha⟩ := h c
  rw [ha] at he
  cases he

theorem Raises.pure (a : α) : Raises P (pure a : Read α) := .of_ok fun c => ⟨a, c, rfl⟩

theorem Raises.throw {e : Cause} (he : P e) : Raises P (throw e : Read α) := by
  intro c e' c' h
  cases h
  exact he

theorem Raises.bind {r : Read α} {f : α → Read β} (hr : Raises P r) (hf : ∀ a, Raises P (f a)) :
    Raises P (r >>= f) := by
  intro c e c' h
  simp only [Bind.bind, EStateM.bind] at h
  split at h
  · exact hf _ _ _ _ h
  · cases h
    exact hr _ _ _ (by assumption)

theorem Raises.ite {p : Prop} [Decidable p] {r s : Read α} (hr : Raises P r) (hs : Raises P s) :
    Raises P (if p then r else s) := by
  split <;> assumption

theorem raises_position : Raises P position := .of_ok fun c => ⟨_, c, rfl⟩

theorem raises_peek? : Raises P peek? := .of_ok fun c => ⟨_, c, rfl⟩

theorem raises_emit (event : Event) : Raises P (emit event) := .of_ok fun c => ⟨_, c, rfl⟩

theorem raises_skipBlank : Raises P skipBlank := .of_ok fun _ => ⟨_, _, rfl⟩

theorem raises_upTo (stop : Byte) : Raises P (upTo stop) := .of_ok fun _ => ⟨_, _, rfl⟩

theorem raises_require {n : Nat} {cause : Cause} (hc : P cause) : Raises P (require n cause) := by
  intro c e c' h
  unfold require at h
  split at h <;> cases h
  exact hc

def Inner (e : Cause) : Prop := ∀ n, e ≠ .elementsOpen n

theorem inner_current : Raises Inner current := by
  intro c e c' h
  unfold current at h
  split at h <;> cases h
  exact nofun

theorem inner_pass : Raises Inner pass := by
  intro c e c' h
  unfold pass at h
  split at h <;> cases h
  exact nofun

theorem inner_next : Raises Inner next := .bind inner_pass fun _ => inner_current

theorem inner_expectNext (text : String) : Raises Inner (expectNext text) := by
  intro c e c' h
  unfold expectNext at h
  split at h
  · cases h
    exact nofun
  · split at h <;> cases h
    exact nofun

theorem inner_name : Raises Inner name := by
  intro c e c' h
  unfold name at h
  split at h
  · cases h
    exact nofun
  · dsimp only at h
    split at h
    · cases h
      exact nofun
    · split at h <;> cases h
      exact nofun

theorem inner_qname : Raises Inner qname :=
  .bind inner_name fun _ => .bind raises_peek? fun _ =>
    .ite (.bind inner_next fun _ => .bind inner_name fun _ => .pure _) (.pure _)

theorem inner_leave (depth : Nat) : Raises Inner (leave depth) := by
  cases depth with
  | zero => exact .throw nofun
  | succ n => exact .pure n

theorem inner_reference : Raises Inner reference := by
  intro c e c' h
  unfold reference at h
  split at h
  · cases h
    exact nofun
  · dsimp only at h
    split at h <;> cases h
    exact nofun

theorem inner_decoded (stop : Byte) (buffer : Buffer) : Raises Inner (decoded stop buffer) := by
  intro c e c' h
  fun_induction decoded stop buffer c with
  | case1 => cases h
  | case2 _ _ _ _ _ _ he =>
    cases h
    exact inner_reference _ _ _ he
  | case3 _ _ _ _ _ _ _ _ _ ih => exact ih h
  | case4 => cases h

theorem inner_run (stop : Byte) : Raises Inner (run stop) := by
  intro c e c' h
  unfold run at h
  dsimp only at h
  split at h
  · split at h <;> cases h
    exact inner_decoded _ _ _ _ _ (by assumption)
  · cases h

theorem inner_text : Raises Inner text :=
  .bind (inner_run _) fun _ => .bind raises_position fun _ => .pure _

theorem inner_openQuote : Raises Inner openQuote :=
  .bind raises_peek? fun _ => .ite (.bind inner_next fun _ => .pure _) (.throw nofun)

theorem inner_closeQuote : Raises Inner closeQuote := by
  intro c e c' h
  unfold closeQuote at h
  split at h <;> cases h
  exact nofun

theorem inner_value : Raises Inner value :=
  .bind inner_openQuote fun _ => .bind (inner_run _) fun _ => .bind inner_closeQuote fun _ =>
    .pure _

theorem inner_literal : Raises Inner literal :=
  .bind inner_openQuote fun _ => .bind (raises_upTo _) fun _ => .bind inner_closeQuote fun _ =>
    .pure _

theorem inner_attr : Raises Inner attr :=
  .bind inner_qname fun _ => .bind raises_peek? fun _ =>
    .ite (.bind inner_next fun _ => .bind inner_value fun _ => .pure _) (.throw nofun)

theorem inner_comment : Raises Inner comment := by
  intro c e c' h
  unfold comment at h
  split at h
  · cases h
    exact nofun
  · dsimp only at h
    split at h <;> cases h
    exact nofun

theorem inner_cdata : Raises Inner cdata := by
  intro c e c' h
  unfold cdata at h
  split at h <;> cases h
  exact nofun

theorem inner_identifier : Raises Inner identifier := by
  intro c e c' h
  unfold identifier at h
  split at h
  · cases h
    exact nofun
  · split at h
    · cases h
    · split at h <;> cases h
      exact nofun

theorem inner_gap : Raises Inner gap :=
  .bind (raises_require nofun) fun _ => .bind raises_skipBlank fun _ => raises_require nofun

theorem inner_doctypeUri : Raises Inner doctypeUri :=
  .bind raises_peek? fun _ => .ite (.pure _) <| .bind inner_literal fun _ =>
    .bind inner_gap fun _ => .bind raises_peek? fun _ => .ite (.pure _) (.throw nofun)

theorem inner_doctype : Raises Inner doctype :=
  .bind inner_name fun _ => .bind raises_skipBlank fun _ => .bind inner_identifier fun _ =>
    .bind inner_gap fun _ => .bind inner_literal fun _ => .bind inner_gap fun _ =>
      .bind inner_doctypeUri fun _ => .bind inner_pass fun _ => .pure _

theorem inner_special (depth : Nat) : Raises Inner (special depth) := by
  refine .bind (raises_require nofun) fun _ => .bind inner_next fun _ =>
    .ite ?_ (.ite ?_ (.ite ?_ (.throw nofun)))
  · exact .bind inner_next fun _ => .ite (.bind inner_pass fun _ =>
      .bind (raises_require nofun) fun _ => .bind inner_comment fun _ => .pure _) (.throw nofun)
  · exact .bind (inner_expectNext _) fun _ => .bind inner_cdata fun _ =>
      .ite (.pure _) (.bind (raises_emit _) fun _ => .pure _)
  · exact .bind (inner_expectNext _) fun _ => .bind raises_skipBlank fun _ =>
      .bind inner_doctype fun _ => .bind (raises_emit _) fun _ => .pure _

theorem inner_expectName (expected : Option Bytes) (found : Bytes) :
    Raises Inner (expectName expected found) := by
  cases expected with
  | none => exact .pure _
  | some wanted => exact .ite (.pure _) (.throw nofun)

theorem inner_openDeclaration (depth : Nat) (expected : Option Bytes) :
    Raises Inner (openDeclaration depth expected) :=
  .bind inner_next fun _ => .bind inner_name fun _ => .bind (inner_expectName _ _) fun _ =>
    .bind (raises_emit _) fun _ => .pure _

theorem inner_closeTag (depth start : Nat) : Raises Inner (closeTag depth start) :=
  .bind (inner_leave _) fun _ => .bind inner_next fun _ => .bind inner_qname fun _ =>
    .bind raises_skipBlank fun _ => .bind inner_current fun _ =>
      .ite (.bind inner_pass fun _ => .bind raises_position fun _ =>
        .bind (raises_emit _) fun _ => .pure _) (.throw nofun)

theorem inner_markup (depth : Nat) : Raises Inner (markup depth) :=
  .bind raises_position fun _ => .bind inner_next fun _ =>
    .ite (inner_closeTag _ _) <| .ite (inner_special _) <| .ite (inner_openDeclaration _ _) <|
      .ite (.bind inner_qname fun _ => .pure _) (.throw nofun)

theorem inner_textStep (depth : Nat) : Raises Inner (textStep depth) :=
  .bind inner_text fun _ => .bind (raises_emit _) fun _ => .pure _

theorem inner_skipOutside : Raises Inner skipOutside := .bind (raises_upTo _) fun _ => .pure _

theorem inner_tag (depth start : Nat) (name : QName) : Raises Inner (tag depth start name) := by
  refine .bind raises_skipBlank fun _ => .bind inner_current fun _ => .ite ?_ (.ite ?_ ?_)
  · exact .bind inner_next fun _ => .ite (.bind inner_pass fun _ =>
      .bind raises_position fun _ => .bind (raises_emit _) fun _ =>
        .bind (raises_emit _) fun _ => .pure _) (.throw nofun)
  · exact .bind inner_pass fun _ => .bind raises_position fun _ =>
      .bind (raises_emit _) fun _ => .pure _
  · exact .bind inner_attr fun _ => .bind (raises_emit _) fun _ => .pure _

theorem inner_declaration (depth : Nat) (name : Bytes) :
    Raises Inner (declaration depth name) := by
  refine .bind raises_skipBlank fun _ => .bind inner_current fun _ => .ite ?_ ?_
  · exact .bind inner_next fun _ => .ite (.bind (raises_emit _) fun _ =>
      .bind inner_pass fun _ => .pure _) (.throw nofun)
  · exact .bind inner_attr fun _ => .bind (raises_emit _) fun _ => .pure _

theorem inner_encoding : Raises Inner encoding := by
  intro c e c' h
  unfold encoding at h
  split at h
  · cases h
  · split at h <;> cases h
    exact nofun

theorem inner_header (config : Config) : Raises Inner (header config) :=
  .bind inner_encoding fun _ => .bind raises_skipBlank fun _ => .bind raises_peek? fun _ =>
    .ite (.ite (.bind inner_next fun _ => .ite (inner_openDeclaration _ _) (.throw nofun))
      (.pure _)) (.throw nofun)

/-- A step finds elements open where the document ends in content, and finds the number that there
is. -/
theorem elementsOpen_of_step {place : Place} {c c' : Cursor} {n : Nat}
    (h : step place c = .error (.elementsOpen n) c') :
    place = ⟨n, .content⟩ ∧ n ≠ 0 ∧ c.rest = [] := by
  obtain ⟨depth, phase⟩ := place
  cases phase with
  | tag start name => exact absurd rfl (inner_tag _ _ _ _ _ _ h n)
  | declaration name => exact absurd rfl (inner_declaration _ _ _ _ _ h n)
  | content =>
    rw [step, content] at h
    split at h
    · split at h <;> cases h
      exact ⟨rfl, by assumption, by assumption⟩
    · split at h
      · exact absurd rfl (inner_markup _ _ _ _ h n)
      · split at h
        · exact absurd rfl (inner_skipOutside _ _ _ h n)
        · exact absurd rfl (inner_textStep _ _ _ _ h n)

end XmlStream.Read
