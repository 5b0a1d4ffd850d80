import Introspect.Proofs.Declaration.WriteOnce
import Introspect.Proofs.Reading.Drafts
import Introspect.Proofs.Reading.Forward

/-!
# Members read forward

The routines for types, parameters and the members of a class, one by one: each of them reads
forward (`Forward`, and `BodyForward` for those that also add to a class). What a draft refuses is
reported at the name of the member it was for, so `Forward.methodDraft`, `Forward.propertyDraft` and
`Forward.constantDraft` say too that this name is a token in front.
-/

namespace Introspect.Reading

/-! ### Types -/

namespace Forward

variable {s₀ : State}

theorem singleType (f : Frame) : Forward s₀ (fun _ => True) (singleType f) := by
  refine Keeps.bind peek fun t ht => ?_
  split
  · exact Keeps.bind (Keeps.discard advance) fun _ _ => Keeps.pure trivial
  · -- a parent is named in a class that has none
    refine Keeps.bind (Keeps.discard advance) fun _ _ => ?_
    cases f.parentName with
    | none => exact Keeps.throw (ht.mayReport ⟨nofun, nofun⟩)
    | some parent => exact Keeps.pure trivial
  · exact Keeps.bind (Keeps.discard advance) fun _ _ => Keeps.pure trivial
  · refine Keeps.bind (Keeps.discard advance) fun _ _ => ?_
    exact Keeps.bind Keeps.get fun _ _ => Keeps.pure trivial
  · exact Keeps.throw (ht.mayReport ⟨nofun, nofun⟩)

theorem typeJoin : Forward s₀ (fun _ => True) typeJoin := by
  refine Keeps.bind Keeps.get fun _ _ => ?_
  refine Keeps.ite (fun _ => ?_) fun _ => Keeps.pure trivial
  exact Keeps.bind (Keeps.discard advance) fun _ _ => Keeps.pure trivial

theorem eats (kind : Token.Kind) :
    Forward s₀ (fun _ => True) (do return (← Reading.eat kind).isSome) :=
  Keeps.bind (eat kind) fun _ _ => Keeps.pure trivial

theorem unionMember (f : Frame) : Forward s₀ (fun _ => True) (unionMember f) := by
  refine Keeps.bind (eat _) fun _ _ => ?_
  refine Keeps.ite (fun _ => ?_) fun _ => ?_
  · -- an intersection in parentheses
    refine Keeps.bind (listOf (singleType f) (eats _)) fun _ _ => ?_
    exact Keeps.bind (Keeps.discard (expect _)) fun _ _ => Keeps.pure trivial
  · refine Keeps.bind (listOf (singleType f) typeJoin) fun hints _ => ?_
    split <;> exact Keeps.pure trivial

theorem typeHint (f : Frame) : Forward s₀ (fun _ => True) (typeHint f) := by
  refine Keeps.bind (eat _) fun _ _ => ?_
  refine Keeps.ite (fun _ => ?_) fun _ => ?_
  · exact Keeps.bind (singleType f) fun _ _ => Keeps.pure trivial
  · refine Keeps.bind (listOf (unionMember f) (eats _)) fun hints _ => ?_
    split <;> exact Keeps.pure trivial

end Forward

/-! ### Parts of members -/

theorem modifierFault?_eq_some {current new : Modifiers} {t : Token} {d : Diagnostic}
    (h : modifierFault? current new t = some d) :
    d.span = t.span ∧ IsPlain d.kind := by
  unfold modifierFault? at h
  split_ifs at h <;> rw [← Option.some.inj h] <;> exact ⟨rfl, nofun, nofun⟩

namespace Forward

variable {s₀ : State}

theorem modifiers : Forward s₀ (fun _ => True) modifiers := by
  refine Keeps.iterate_trivial (fun current => ?_) _
  refine Keeps.bind peek fun t ht => ?_
  cases modifierOf? t.kind with
  | none => exact Keeps.pure trivial
  | some new =>
    refine Keeps.bind (Keeps.discard advance) fun _ _ => ?_
    cases hfault : modifierFault? current new t with
    | none => exact Keeps.pure trivial
    | some d =>
      -- reported at the modifier itself
      obtain ⟨hspan, hkind⟩ := modifierFault?_eq_some hfault
      rw [← hspan] at ht
      exact Keeps.bind (report (ht.mayReport hkind)) fun _ _ => Keeps.pure trivial

theorem memberName : Forward s₀ (fun t : Token => s₀.Sees t.span) memberName :=
  Keeps.bind peek fun _ _ => Keeps.ite (fun _ => advance) fun _ => unexpectedName

theorem promotion : Forward s₀ (fun _ => True) promotion := by
  refine Keeps.iterate_trivial (fun current => ?_) _
  refine Keeps.bind peekKind fun k _ => ?_
  cases promotionOf? k with
  | none => exact Keeps.pure trivial
  | some new => exact Keeps.bind (Keeps.discard advance) fun _ _ => Keeps.pure trivial

theorem defaultValue? (cfg : Setting) (stops : List Token.Kind) :
    Forward s₀ (fun _ => True) (defaultValue? cfg stops) := by
  refine Keeps.bind (eat _) fun _ _ => ?_
  refine Keeps.ite (fun _ => ?_) fun _ => Keeps.pure trivial
  exact Keeps.bind (initializer _ _) fun _ _ => Keeps.pure trivial

theorem declaredType? (f : Frame) : Forward s₀ (fun _ => True) (declaredType? f) := by
  refine Keeps.bind peekKind fun k _ => ?_
  split
  case h_4 => exact Keeps.map_trivial (typeHint f)
  all_goals exact Keeps.pure trivial

/-- The property that a parameter declares is owned by no class yet. -/
theorem parameter (cfg : Setting) (f : Frame) (doc : Option DocBlock) :
    Forward s₀ (fun r : ParameterDraft × Option PropertyDraft => ∀ q ∈ r.2, q.className = none)
      (parameter cfg f doc) := by
  rw [parameter_eq]
  refine Keeps.bind skipAttributes fun _ _ => ?_
  refine Keeps.bind peek fun first _ => ?_
  refine Keeps.bind promotion fun mods _ => ?_
  refine Keeps.bind (declaredType? f) fun declared _ => ?_
  refine Keeps.bind (eat _) fun _ _ => ?_
  refine Keeps.bind (eat _) fun _ _ => ?_
  refine Keeps.bind (expect _) fun var _ => ?_
  refine Keeps.bind (defaultValue? _ _) fun value _ => ?_
  refine Keeps.bind Keeps.get fun s _ => ?_
  refine Keeps.pure fun q hq => ?_
  obtain ⟨-, rfl⟩ := mem_promoted.mp hq
  rfl

theorem parametersOpen : Forward s₀ (fun _ => True) parametersOpen := by
  refine Keeps.bind peek fun t ht => ?_
  refine Keeps.ite (fun _ => Keeps.throw (ht.mayReport ⟨nofun, nofun⟩)) fun _ => ?_
  exact Keeps.discard advance

theorem parameterList (cfg : Setting) (f : Frame) (doc : Option DocBlock) :
    Forward s₀ (fun ps : List (ParameterDraft × Option PropertyDraft) =>
      ∀ p ∈ ps, ∀ q ∈ p.2, q.className = none) (parameterList cfg f doc) := by
  refine Keeps.bind peekKind fun _ _ => ?_
  refine Keeps.ite (fun _ => Keeps.pure (by simp)) fun _ => ?_
  exact listOf (parameter cfg f doc) (commaBefore _)

theorem parameters (cfg : Setting) (f : Frame) (doc : Option DocBlock) :
    Forward s₀ (fun r : List ParameterDraft × List PropertyDraft => ∀ q ∈ r.2, q.className = none)
      (parameters cfg f doc) := by
  rw [parameters_eq]
  refine Keeps.bind parametersOpen fun _ _ => ?_
  refine Keeps.bind (parameterList cfg f doc) fun ps hps => ?_
  refine Keeps.bind (Keeps.discard (expect _)) fun _ _ => Keeps.pure fun q hq => ?_
  obtain ⟨p, hp, hpq⟩ := List.mem_filterMap.mp hq
  exact hps p hp q hpq

theorem returnType (f : Frame) (doc : Option DocBlock) :
    Forward s₀ (fun _ => True) (returnType f doc) := by
  refine Keeps.bind (eat _) fun _ _ => ?_
  refine Keeps.ite (fun _ => ?_) fun _ => ?_
  · exact Keeps.bind (typeHint f) fun _ _ => Keeps.pure trivial
  · exact Keeps.bind Keeps.get fun _ _ => Keeps.pure trivial

theorem methodEnd : Forward s₀ (fun t : Token => s₀.Sees t.span) methodEnd := by
  refine Keeps.bind peekKind fun k _ => ?_
  split
  · exact advance
  · exact skipBlock
  · exact unexpected _

/-- **A method that has been read.** Its name, at which its redeclaration is reported, is a token in
front, and neither the method nor a property that a parameter declares is owned by a class. -/
structure ReadsMethod (s₀ : State) (r : MethodDraft × Token × List PropertyDraft) : Prop where
  sees : s₀.Sees r.2.1.span
  name_eq : r.1.name = r.2.1.lexeme
  unowned : r.1.className = none
  promoted_unowned : ∀ q ∈ r.2.2, q.className = none

theorem methodDraft (cfg : Setting) (d : ClassDraft) (mods : Modifiers) (doc : Option String)
    (line : Nat) : Forward s₀ (ReadsMethod s₀) (methodDraft cfg d mods doc line) := by
  rw [methodDraft_eq]
  refine Keeps.bind (Keeps.discard (expect _)) fun _ _ => ?_
  refine Keeps.bind (eat _) fun _ _ => ?_
  refine Keeps.bind memberName fun name hname => ?_
  refine Keeps.bind (parameters _ _ _) fun (params, promoted) hpromoted => ?_
  refine Keeps.bind (returnType _ _) fun hint _ => ?_
  refine Keeps.bind methodEnd fun closing _ => ?_
  exact Keeps.pure ⟨hname, rfl, rfl, hpromoted⟩

theorem propertyDraft (cfg : Setting) (mods : Modifiers) (hint : Option TypeHint)
    (doc : Option String) (line : Nat) :
    Forward s₀ (fun p : PropertyDraft × Span => s₀.Sees p.2 ∧ p.1.className = none)
      (propertyDraft cfg mods hint doc line) := by
  rw [propertyDraft_eq]
  refine Keeps.bind (expect _) fun var hvar => ?_
  refine Keeps.bind (defaultValue? _ _) fun value _ => ?_
  exact Keeps.pure ⟨hvar, rfl⟩

theorem constantDraft (cfg : Setting) (mods : Modifiers) (hint : Option TypeHint) :
    Forward s₀ (fun p : Constant × Span => s₀.Sees p.2) (constantDraft cfg mods hint) := by
  refine Keeps.bind memberName fun name hname => ?_
  refine Keeps.bind (Keeps.discard (expect _)) fun _ _ => ?_
  exact Keeps.bind (initializer _ _) fun _ _ => Keeps.pure hname

end Forward

/-! ### Members -/

/-- **Additions to a class.** The write leaves the line on which the class ends, and it writes no
field of a member a second time. -/
structure Adds (f : ClassDraft → Except DraftError ClassDraft) : Prop where
  endLine_eq : ∀ d d', f d = .ok d' → d'.endLine = d.endLine
  written : ∀ d e, f d = .error e → e.kind ≠ .duplicateInitialization

theorem adds_method {m : MethodDraft} (h : m.className = none) : Adds (·.addMethod m) where
  endLine_eq d d' hok := by rw [(ClassDraft.of_addMethod hok).2]
  written d e herror := by
    -- a taken name is a reason of another kind, and no class owns the method
    rcases ClassDraft.addMethod_eq_error_iff.mp herror with ⟨-, rfl⟩ | ⟨-, howned, -⟩
    · exact nofun
    · rw [h] at howned
      exact absurd howned (by decide)

theorem adds_property {p : PropertyDraft} (h : p.className = none) : Adds (·.addProperty p) where
  endLine_eq d d' hok := by rw [(ClassDraft.of_addProperty hok).2]
  written d e herror := by
    rcases ClassDraft.addProperty_eq_error_iff.mp herror with ⟨-, rfl⟩ | ⟨-, howned, -⟩
    · exact nofun
    · rw [h] at howned
      exact absurd howned (by decide)

theorem adds_constant (c : Constant) : Adds (·.addConstant c) where
  endLine_eq d d' hok := by rw [(ClassDraft.of_addConstant hok).2]
  written d e herror := by
    rw [(ClassDraft.addConstant_eq_error_iff.mp herror).2]
    exact nofun

namespace BodyForward

variable {s₀ : State} {endLine : Option Nat} {α : Type}

/-- A routine that adds nothing reads forward as it does on its own. -/
theorem reading {good : α → Prop} {r : Routine α} (hr : Forward s₀ good r) :
    BodyForward s₀ endLine good (reading r) := by
  intro b hb
  unfold Reading.reading
  cases h : r b.toState with
  | ok a s =>
    obtain ⟨hs, ha⟩ := hr.of_ok hb.reads h
    exact ⟨⟨hs, hb.endLine_eq⟩, ha⟩
  | error d s =>
    obtain ⟨hs, hd⟩ := hr.of_error hb.reads h
    exact ⟨⟨hs, hb.endLine_eq⟩, hd⟩

theorem adding {span : Span} (hspan : s₀.Sees span) {f : ClassDraft → Except DraftError ClassDraft}
    (hf : Adds f) : BodyForward s₀ endLine (fun _ => True) (adding span f) := by
  refine Keeps.bind Keeps.get fun b hb => ?_
  refine Keeps.bind (reading (Forward.write hspan (hf.written b.draft))) fun draft hdraft => ?_
  refine Keeps.modify fun b' hb' => ⟨hb'.reads, ?_⟩
  -- added, or refused and then as it was
  rcases hdraft with hok | rfl
  · exact (hf.endLine_eq _ _ hok).trans hb.endLine_eq
  · exact hb.endLine_eq

theorem method (cfg : Setting) (mods : Modifiers) (doc : Option String) (line : Nat) :
    BodyForward s₀ endLine (fun _ => True) (method cfg mods doc line) := by
  refine Keeps.bind Keeps.get fun b _ => ?_
  refine Keeps.bind (reading (Forward.methodDraft _ _ _ _ _)) fun (m, name, promoted) hm => ?_
  refine Keeps.bind (adding hm.sees (adds_method hm.unowned)) fun _ _ => ?_
  -- the properties that a constructor promotes are added at its name too
  refine Keeps.ite (fun _ => ?_) fun _ => Keeps.pure trivial
  exact Keeps.forM fun p hp => adding hm.sees (adds_property (hm.promoted_unowned p hp))

theorem properties (cfg : Setting) (mods : Modifiers) (declared : Option TypeHint)
    (doc : Option String) (line : Nat) :
    BodyForward s₀ endLine (fun _ => True) (properties cfg mods declared doc line) := by
  refine Keeps.bind Keeps.get fun b _ => ?_
  refine Keeps.bind (Keeps.discard (Keeps.iterate_trivial (fun (doc, line) => ?_) _)) fun _ _ =>
    Keeps.discard (reading (Forward.expect _))
  refine Keeps.bind (reading (Forward.propertyDraft _ _ _ _ _)) fun (p, span) hp => ?_
  refine Keeps.bind (adding hp.1 (adds_property hp.2)) fun _ _ => ?_
  refine Keeps.bind (reading Forward.comma) fun _ _ => ?_
  refine Keeps.ite (fun _ => ?_) fun _ => Keeps.pure trivial
  exact Keeps.bind Keeps.get fun _ _ => Keeps.pure trivial

theorem constantType? (cfg : Setting) (b : Body) :
    BodyForward s₀ endLine (fun _ => True) (constantType? cfg b) :=
  Keeps.ite (fun _ => Keeps.pure trivial) fun _ =>
    Keeps.map_trivial (reading (Forward.typeHint _))

theorem constants (cfg : Setting) (mods : Modifiers) :
    BodyForward s₀ endLine (fun _ => True) (constants cfg mods) := by
  rw [constants_eq]
  refine Keeps.bind (Keeps.discard (reading (Forward.expect _))) fun _ _ => ?_
  refine Keeps.bind Keeps.get fun b _ => ?_
  refine Keeps.bind (constantType? cfg b) fun hint _ => ?_
  refine Keeps.bind (Keeps.discard (Keeps.iterate_trivial (fun _ => ?_) _)) fun _ _ =>
    Keeps.discard (reading (Forward.expect _))
  refine Keeps.bind (reading (Forward.constantDraft _ _ _)) fun (c, span) hspan => ?_
  refine Keeps.bind (adding hspan (adds_constant c)) fun _ _ => ?_
  exact Keeps.bind (reading Forward.comma) fun _ _ => Keeps.pure trivial

theorem modifiedMember (cfg : Setting) (mods : Modifiers) (doc : Option String) (line : Nat) :
    BodyForward s₀ endLine (fun _ => True) (modifiedMember cfg mods doc line) := by
  refine Keeps.bind Keeps.get fun b hb => ?_
  refine Keeps.ite (fun _ => method cfg mods doc line) fun _ => ?_
  refine Keeps.ite (fun _ => constants cfg mods) fun _ => ?_
  refine Keeps.ite (fun _ => properties cfg mods none doc line) fun _ => ?_
  refine Keeps.ite (fun _ => ?_) fun _ =>
    Keeps.throw (hb.reads.sees_peek.mayReport ⟨nofun, nofun⟩)
  refine Keeps.bind Keeps.get fun _ _ => ?_
  exact Keeps.bind (reading (Forward.typeHint _)) fun _ _ => properties _ _ _ _ _

theorem member (cfg : Setting) : BodyForward s₀ endLine (fun _ => True) (member cfg) := by
  refine Keeps.bind Keeps.get fun _ _ => ?_
  refine Keeps.bind (reading Forward.skipAttributes) fun _ _ => ?_
  refine Keeps.bind Keeps.get fun b _ => ?_
  split
  · exact reading (Keeps.bind (Keeps.discard Forward.advance) fun _ _ => Forward.skipStatement)
  · exact Keeps.discard (reading Forward.advance)
  · refine Keeps.bind (reading (Forward.docSince _)) fun _ _ => ?_
    refine Keeps.bind Keeps.get fun _ _ => ?_
    exact Keeps.bind (reading Forward.modifiers) fun _ _ => modifiedMember _ _ _ _

theorem memberOrRecover (cfg : Setting) :
    BodyForward s₀ endLine (fun _ => True) (memberOrRecover cfg) := by
  refine Keeps.bind Keeps.get fun _ _ => ?_
  refine Keeps.bind (Keeps.attempt (member cfg)) fun r hr => ?_
  extract_lets behind
  have hbehind : ∀ u, BodyForward s₀ endLine (fun _ => True) (behind u) := by
    intro _
    refine Keeps.bind Keeps.get fun _ _ => ?_
    exact Keeps.ite (fun _ => Keeps.discard (reading Forward.advance)) fun _ => Keeps.pure trivial
  cases r with
  | ok u => exact hbehind u
  | error d =>
    -- what the member was given up with is about a token in front, so it may be reported
    have hrecover := Keeps.bind (Forward.report hr) fun _ _ => Forward.recoverMember
    exact Keeps.bind (reading hrecover) fun u _ => hbehind u

theorem classBody (cfg : Setting) : BodyForward s₀ endLine (fun _ => True) (classBody cfg) := by
  refine Keeps.iterate_trivial (fun _ => ?_) _
  refine Keeps.bind Keeps.get fun b _ => ?_
  split
  · exact Keeps.pure trivial
  · exact Keeps.pure trivial
  · exact Keeps.bind (memberOrRecover cfg) fun _ _ => Keeps.pure trivial

end BodyForward

end Introspect.Reading
