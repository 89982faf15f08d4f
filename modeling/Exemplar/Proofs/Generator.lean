import Exemplar.Generator
import Exemplar.Proofs.Results

/-!
# What generators do

Compiling a pattern and asking for a string, taken apart.

## Main results

* `of_compile`, `compile_of_completed`: compiling reads the pattern and completes its tree
* `Generator.beq_iff_text_eq`: generators are compared by their texts
* `Generator.generate_eq_ok`, `Generator.generate_eq_error`: a string is generated when the search
  finds it
-/

namespace Exemplar

/-- Compiling reads the pattern and completes its tree. -/
theorem of_compile {options : Options} {pattern : String} {c : Compiled}
    (h : compile options pattern = .ok c) :
    Pattern.parse options pattern.toList = .ok c.tree ∧
      c.tree.completed options = .ok c.generator.root ∧ c.generator.options = options ∧
      c.generator.anchored = (options.whole || c.tree.pins.isComplete) := by
  simp only [compile, bind_eq_ok, mapError_eq_ok, pure_eq_ok] at h
  obtain ⟨tree, htree, generator, hgenerator, rfl⟩ := h
  rw [Generator.ofTree, map_eq_ok] at hgenerator
  obtain ⟨root, hroot, rfl⟩ := hgenerator
  exact ⟨htree, hroot, rfl, rfl⟩

section Completed

variable {options : Options} {pattern : String} {t : Tree}

/-- A pattern that is read is compiled if its tree can be completed. -/
theorem compile_of_completed {root : Tree} (h : Pattern.parse options pattern.toList = .ok t)
    (hroot : t.completed options = .ok root) :
    compile options pattern = .ok ⟨t, root, options, options.whole || t.pins.isComplete⟩ := by
  simp only [compile, bind_eq_ok, mapError_eq_ok, pure_eq_ok]
  exact ⟨t, h, _, by rw [Generator.ofTree, hroot]; rfl, rfl⟩

theorem compile_of_completed_error {e : Tree.PaddingError}
    (h : Pattern.parse options pattern.toList = .ok t) (he : t.completed options = .error e) :
    compile options pattern = .error (.padding e) := by
  simp only [compile, bind_eq_error]
  exact .inr ⟨t, by rw [h]; rfl, .inl (by rw [Generator.ofTree, he]; rfl)⟩

end Completed

/-- A compiled pattern that passes a test. -/
theorem exists_of_compile {options : Options} {pattern : String} {test : Compiled → Bool}
    (h : (compile options pattern).toOption.any test = true) :
    ∃ c, compile options pattern = .ok c ∧ test c = true :=
  exists_ok_of_any h

/-- A pattern that is refused with this error. -/
theorem compile_eq_error {options : Options} {pattern : String} {e : CompileError}
    (h : (match compile options pattern with | .ok _ => none | .error e => some e) = some e) :
    compile options pattern = .error e := by
  cases hc : compile options pattern with
  | ok c =>
    rw [hc] at h
    cases h
  | error e' =>
    rw [hc] at h
    rw [Option.some.inj h]

namespace Generator

/-- Generators compare equal just if they have the same text. -/
theorem beq_iff_text_eq {g g' : Generator} : (g == g') = true ↔ g.text = g'.text := by
  change (compare g.text g'.text == .eq) = true ↔ _
  rw [beq_iff_eq, Std.LawfulEqCmp.compare_eq_iff_eq]

/-- A string is generated when the search finds it. -/
theorem generate_eq_ok {σ : Type} {g : Generator} {source : RandomSource σ} {target : Extent}
    {s : σ} {text : String} :
    (∃ s', g.generate source target s = .ok text s') ↔
      (g.search source target s).1.result = .ok text.toList := by
  unfold generate
  rcases g.search source target s with ⟨⟨failed, result⟩, s'⟩
  cases result with
  | ok w =>
    simp only [EStateM.Result.ok.injEq, Except.ok.injEq]
    constructor
    · rintro ⟨_, rfl, -⟩
      exact String.toList_ofList.symm
    · rintro rfl
      exact ⟨s', String.ofList_toList, rfl⟩
  | error e => simp

/-- No string is generated, for the reason that the search gives. -/
theorem generate_eq_error {σ : Type} {g : Generator} {source : RandomSource σ} {target : Extent}
    {s : σ} {x : EmissionError} :
    (∃ s', g.generate source target s = .error x s') ↔
      (g.search source target s).1.result = .error x := by
  unfold generate
  rcases g.search source target s with ⟨⟨failed, result⟩, s'⟩
  cases result <;> simp

/-- A search that finds a given string. -/
theorem exists_of_search_eq {σ : Type} {g : Generator} {source : RandomSource σ} {target : Extent}
    {s : σ} {text : String}
    (h : (g.search source target s).1.result.toOption = some text.toList) :
    ∃ s', g.generate source target s = .ok text s' := by
  refine generate_eq_ok.mpr ?_
  cases hresult : (g.search source target s).1.result with
  | ok w =>
    rw [hresult] at h
    rw [Option.some.inj h]
  | error e =>
    rw [hresult] at h
    cases h

/-- A search that finds a string. -/
theorem exists_of_search {σ : Type} {g : Generator} {source : RandomSource σ} {target : Extent}
    {s : σ} (h : (g.search source target s).1.result.toBool = true) :
    ∃ text s', g.generate source target s = .ok text s' := by
  cases hresult : (g.search source target s).1.result with
  | ok w => exact ⟨.ofList w, generate_eq_ok.mpr (by rw [hresult, String.toList_ofList])⟩
  | error e =>
    rw [hresult] at h
    cases h

end Generator

end Exemplar
