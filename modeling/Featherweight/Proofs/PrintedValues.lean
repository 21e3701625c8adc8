import Featherweight.Proofs.Closing
import Featherweight.Proofs.PrintedTerms
import Featherweight.Proofs.Values

/-!
# Values read back from their text

A value is written as the term that creates it. Read as a program and evaluated, that text
gives the value again, in any class table: a creation looks up nothing. So the text of a
value determines it.
-/

namespace Featherweight

namespace Value

variable {v w : Value}

theorem AllTypes.spelled_toTerm (h : v.AllTypes Ty.Spelled) : v.toTerm.Spelled := by
  induction h with
  | mk hN _ ih =>
    rw [toTerm, toTerms_eq_map]
    exact .new hN (List.forall_mem_map.2 ih)

theorem plainBases_toTerm (v : Value) : v.toTerm.PlainBases := by
  induction v using Value.induction with
  | mk N vs ih =>
    rw [toTerm, toTerms_eq_map]
    exact .new (List.forall_mem_map.2 ih)

theorem AllTypes.exists_gives_text (h : v.AllTypes Ty.Spelled) :
    ∃ p, (Program.ofSource v.text).Gives p ∧ p.classes = [] ∧
      ∀ t : ClassTable, t.Returns .empty p.term (.ok v) := by
  obtain ⟨p, hp, hclasses, hterm⟩ := Program.exists_gives_text h.spelled_toTerm
  refine ⟨p, hp, hclasses, fun t => ?_⟩
  rw [hterm, v.plainBases_toTerm.regroup_eq]
  exact ClassTable.exists_gives_toTerm t v

/-- The text of a value is a program without classes that returns the value, in every class
table. No other value has the same text. -/
theorem text_returns (h : v.AllTypes Ty.Spelled) :
    (∃ p, (Program.ofSource v.text).Gives p ∧ p.classes = [] ∧
      ∀ t : ClassTable, t.Returns .empty p.term (.ok v)) ∧
    ∀ w : Value, w.AllTypes Ty.Spelled → w.text = v.text → w = v := by
  refine ⟨h.exists_gives_text, fun w hw htext => ?_⟩
  obtain ⟨p, hp, -, hv⟩ := h.exists_gives_text
  obtain ⟨q, hq, -, hw⟩ := hw.exists_gives_text
  rw [htext] at hq
  cases hp.unique hq
  exact Except.ok.inj ((hw ⟨[]⟩).unique (hv ⟨[]⟩))

def boxAndObject : Value :=
  ⟨⟨"Pair", [.inst "Object" [], .inst "Box" [.inst "A" []]]⟩,
    [⟨⟨"Box", [.inst "A" []]⟩, [⟨⟨"A", []⟩, []⟩]⟩, ⟨⟨"Object", []⟩, []⟩]⟩

theorem text_returns_boxAndObject :
    boxAndObject.text = "new Pair<Object,Box<A>>(new Box<A>(new A()), new Object())" ∧
    boxAndObject.AllTypes Ty.Spelled ∧
    (∃ p, (Program.ofSource boxAndObject.text).Gives p ∧ p.classes = [] ∧
      ∀ t : ClassTable, t.Returns .empty p.term (.ok boxAndObject)) ∧
    ∀ w : Value, w.AllTypes Ty.Spelled → w.text = boxAndObject.text → w = boxAndObject := by
  have hA : (Ty.inst "A" []).Spelled := .inst (by decide) (by simp)
  have hObject : (Ty.inst "Object" []).Spelled := .inst (by decide) (by simp)
  have hBox : (Ty.inst "Box" [.inst "A" []]).Spelled := .inst (by decide) (by simpa using hA)
  have hPair : (Ty.inst "Pair" [.inst "Object" [], .inst "Box" [.inst "A" []]]).Spelled :=
    .inst (by decide) (by simpa using ⟨hObject, hBox⟩)
  have hbox : AllTypes Ty.Spelled ⟨⟨"Box", [.inst "A" []]⟩, [⟨⟨"A", []⟩, []⟩]⟩ :=
    .mk hBox (by simpa using .mk hA (by simp))
  have hall : boxAndObject.AllTypes Ty.Spelled :=
    .mk hPair (by simpa using ⟨hbox, .mk hObject (by simp)⟩)
  exact ⟨by decide +kernel, hall, text_returns hall⟩

end Value

end Featherweight
