import TypeFlow.Overload.Candidates
import TypeFlow.Proofs.TypeExpr.RoundTrip

/-!
# The written form is a normal form

However a type was spelled, its written form is read as the same type (`written_normalForm`), so that two
spellings mean the same type exactly if they are written in the same way. This is what candidates of one
name are told apart by: two signatures whose restrictions were read from texts have the same restrictions
as written only if they have the same restrictions. A parameter without restriction is written as the
empty text, which no type is read from.
-/

namespace TypeFlow

theorem TypeTerm.renderBytes_eq_spelled (t : TypeTerm (List UInt8)) : t.renderBytes = spelled id t := by
  rw [renderBytes, spelled]
  congr 1
  funext p
  cases p <;> rfl

/-- A written type that some text is read as. -/
def TypeExpr.IsRead (e : TypeExpr) : Prop :=
  ∃ s, TypeExpr.parse s = .ok e

/-- A signature whose restrictions were read from texts. -/
def Signature.IsRead (s : Signature) : Prop :=
  ∀ p ∈ s.params, ∀ e ∈ p.2, TypeExpr.IsRead e

namespace TypeExpr.IsRead

theorem parse_eq {e : TypeExpr} (h : e.IsRead) : TypeExpr.parse e.render = .ok e := by
  obtain ⟨s, hs⟩ := h
  exact parse_render hs

theorem eq_of_render {e f : TypeExpr} (he : e.IsRead) (hf : f.IsRead) (h : e.render = f.render) :
    e = f := by
  have hsame := he.parse_eq
  rw [h, hf.parse_eq] at hsame
  exact (Except.ok.inj hsame).symm

/-- No type is written as the empty text. -/
theorem render_ne_empty {e : TypeExpr} (h : e.IsRead) : e.render ≠ "" := by
  intro hempty
  have hparse := h.parse_eq
  rw [hempty, TypeExpr.parse, Text.bytes_empty] at hparse
  cases hparse

end TypeExpr.IsRead

namespace Overload

/-- The written form tells restrictions apart. -/
theorem eq_of_restrictionText {x y : Option TypeExpr} (hx : ∀ e ∈ x, TypeExpr.IsRead e)
    (hy : ∀ e ∈ y, TypeExpr.IsRead e) (h : restrictionText x = restrictionText y) : x = y := by
  match x, y with
  | none, none => rfl
  | none, some f => exact absurd h.symm (hy f rfl).render_ne_empty
  | some e, none => exact absurd h (hx e rfl).render_ne_empty
  | some e, some f => rw [(hx e rfl).eq_of_render (hy f rfl) h]

theorem eq_of_restrictionTexts {xs ys : List (Option TypeExpr)}
    (hxs : ∀ x ∈ xs, ∀ e ∈ x, TypeExpr.IsRead e) (hys : ∀ y ∈ ys, ∀ e ∈ y, TypeExpr.IsRead e)
    (h : xs.map restrictionText = ys.map restrictionText) : xs = ys := by
  induction xs generalizing ys with
  | nil => exact (List.map_eq_nil_iff.mp h.symm).symm
  | cons x xs ih =>
    obtain ⟨y, ys', rfl, hhead, hrest⟩ := List.map_eq_cons_iff.mp h.symm
    obtain ⟨hx, hxs⟩ := List.forall_mem_cons.mp hxs
    obtain ⟨hy, hys⟩ := List.forall_mem_cons.mp hys
    rw [eq_of_restrictionText hx hy hhead.symm, ih hxs hys hrest.symm]

/-- Signatures with the same restrictions as written have the same restrictions. -/
theorem sameRestrictions_iff {a b : Signature} (ha : a.IsRead) (hb : b.IsRead) :
    sameRestrictions a b = true ↔ a.params.map Prod.snd = b.params.map Prod.snd := by
  have hread : ∀ {s : Signature}, s.IsRead →
      ∀ x ∈ s.params.map Prod.snd, ∀ e ∈ x, TypeExpr.IsRead e := by
    intro s hs x hx
    obtain ⟨p, hp, rfl⟩ := List.mem_map.mp hx
    exact hs p hp
  rw [sameRestrictions, beq_iff_eq]
  change a.params.map (restrictionText ∘ Prod.snd) = b.params.map (restrictionText ∘ Prod.snd) ↔ _
  rw [← List.map_map, ← List.map_map]
  exact ⟨eq_of_restrictionTexts (hread ha) (hread hb), congrArg _⟩

end Overload

/-- **The written form of a type is its normal form.** What was read, from bytes or from a text, is read
again from its written form; two types that were read have the same written form exactly if they are the
same; and signatures whose restrictions were read have the same restrictions as written exactly if they
have the same restrictions. -/
theorem written_normalForm :
    (∀ s t, TypeTerm.parse s = .ok t → TypeTerm.parse t.renderBytes = .ok t) ∧
    (∀ s r t u, TypeTerm.parse s = .ok t → TypeTerm.parse r = .ok u →
      (t.renderBytes = u.renderBytes ↔ t = u)) ∧
    (∀ s e, TypeExpr.parse s = .ok e → TypeExpr.parse e.render = .ok e) ∧
    (∀ a b : Signature, a.IsRead → b.IsRead →
      (Overload.sameRestrictions a b = true ↔ a.params.map Prod.snd = b.params.map Prod.snd)) := by
  have hagain : ∀ s t, TypeTerm.parse s = .ok t → TypeTerm.parse t.renderBytes = .ok t := by
    intro s t h
    rw [t.renderBytes_eq_spelled]
    exact TypeTerm.parse_spelled h
  refine ⟨hagain, fun s r t u ht hu => ⟨fun h => ?_, congrArg _⟩, fun s e => TypeExpr.parse_render,
    fun a b => Overload.sameRestrictions_iff⟩
  have hsame := hagain s t ht
  rw [h, hagain r u hu] at hsame
  exact (Except.ok.inj hsame).symm

/-- A pointer, or the type of the receiver. -/
def pointerOrSelf : TypeExpr :=
  .union [.named ["Pointer"] [.named ["Int32"] []], .self]

/-- A method with one parameter, that is restricted to a pointer or the type of the receiver. -/
def pointing : Signature :=
  { owner := 0, params := [("x", some pointerOrSelf)] }

theorem written_normalForm_pointing :
    TypeExpr.parse "Int32*|self" = .ok pointerOrSelf ∧
    TypeExpr.parse pointerOrSelf.render = .ok pointerOrSelf ∧
    pointing.IsRead ∧ Overload.sameRestrictions pointing pointing = true ∧
    ∃ t u, TypeTerm.parse (Text.bytes "Int32*|self") = .ok t ∧
      TypeTerm.parse (Text.bytes " Pointer( Int32 ) | self") = .ok u ∧
      TypeTerm.parse t.renderBytes = .ok t ∧ t.renderBytes = u.renderBytes := by
  obtain ⟨hbytes, hsame, htext, hsignatures⟩ := written_normalForm
  have hfirst : TypeTerm.parse (Text.bytes "Int32*|self") = .ok
      (.union [.named [TypeTerm.pointerBytes] [.named [[0x49, 0x6E, 0x74, 0x33, 0x32]] []], .self]) := by
    rw [Text.bytes_eq]
    rfl
  have hsecond : TypeTerm.parse (Text.bytes " Pointer( Int32 ) | self") = .ok
      (.union [.named [TypeTerm.pointerBytes] [.named [[0x49, 0x6E, 0x74, 0x33, 0x32]] []], .self]) := by
    rw [Text.bytes_eq]
    rfl
  have hread : TypeExpr.parse "Int32*|self" = .ok pointerOrSelf := by
    rw [TypeExpr.parse, hfirst]
    rfl
  have hpointing : pointing.IsRead := by
    rintro p hp e he
    obtain rfl := List.mem_singleton.mp hp
    obtain rfl := Option.some.inj he
    exact ⟨_, hread⟩
  exact ⟨hread, htext _ _ hread, hpointing, (hsignatures _ _ hpointing hpointing).mpr rfl, _, _, hfirst,
    hsecond, hbytes _ _ hfirst, (hsame _ _ _ _ hfirst hsecond).mpr rfl⟩

end TypeFlow
