import LinProg.Proofs.Simplex.Mapped

/-!
# Columnar storage refines dense storage

With exact numbers, dense and columnar storage can't be told apart.  Both read as the same grid
after any operations, whatever columns were cut off and whichever columns are kept as symbols.  The
simplex method on either of them is, read as a grid, the same run.
-/

namespace LinProg

namespace Tableau

variable {α : Type} [Scalar α] [ExactScalar α]

/-- Columnar storage after operations, with a proof that its columns fit. -/
theorem perform_columnar (rows : List (List α)) (operations : List (Operation α)) :
    perform (ofRows rows : Columnar α) operations =
      (perform (ofRows rows : ProperColumnar α) operations).val := by
  rw [isHom_proper.map_perform, isHom_proper.map_ofRows]

theorem wellFormed_perform (rows : List (List α)) (operations : List (Operation α)) :
    (perform (ofRows rows : Columnar α) operations).WellFormed := by
  rw [perform_columnar]
  exact (perform (ofRows rows : ProperColumnar α) operations).property

/-- Any storage that is lawful and total is, read as a grid, the grid after the operations. -/
theorem grid_perform {τ : Type} [Tableau τ α] [TotalTableau τ] (rows : List (List α))
    (operations : List (Operation α)) :
    grid (perform (ofRows rows : τ) operations) = perform (ofRows rows) operations := by
  rw [isHom_grid.map_perform, isHom_grid.map_ofRows]

theorem grid_columnar_eq_dense (rows : List (List α)) (operations : List (Operation α)) :
    grid (perform (ofRows rows : Columnar α) operations) =
      grid (perform (ofRows rows : Dense α) operations) := by
  rw [perform_columnar, grid_perform, ← grid_perform (τ := ProperColumnar α)]
  rfl

end Tableau

namespace Simplex

variable {α : Type} [Scalar α] [ExactScalar α] {n : Nat} (p : StandardForm α n) (rule : PivotRule)
  (threshold places : Nat)

omit [ExactScalar α] in
theorem map_solve_new {τ σ : Type} [Tableau τ α] [Tableau σ α] {f : τ → σ}
    (hf : Tableau.IsHom f) :
    (new p rule threshold places : Simplex τ α).solve.map f =
      (new p rule threshold places : Simplex σ α).solve := by
  rw [← solve_map hf, new_map hf]

/-- The run on either storage, read as a grid. -/
theorem map_grid_columnar_eq_dense :
    (new p rule threshold places : Simplex (Columnar α) α).solve.map Tableau.grid =
      (new p rule threshold places : Simplex (Dense α) α).solve.map Tableau.grid := by
  have hdense := map_solve_new p rule threshold places (Tableau.isHom_grid (τ := Dense α))
  have hproper := map_solve_new p rule threshold places (Tableau.isHom_grid (τ := ProperColumnar α))
  rw [hdense, ← hproper, ← map_solve_new p rule threshold places Tableau.isHom_proper, map_map]
  rfl

end Simplex

/-- Over exact numbers, columnar and dense storage read the same after any operations, and columnar
storage stays well formed.  Any program ends on both in the same state, after the same number of
iterations, with the same report. -/
theorem columnar_refines_dense {α : Type} [Scalar α] [ExactScalar α] :
    (∀ (rows : List (List α)) (operations : List (Tableau.Operation α)),
      let columnar : Columnar α := Tableau.perform (Tableau.ofRows rows) operations
      let dense : Dense α := Tableau.perform (Tableau.ofRows rows) operations
      columnar.WellFormed ∧ Tableau.nrRows columnar = Tableau.nrRows dense ∧
        Tableau.nrColumns columnar = Tableau.nrColumns dense ∧
        ∀ row column, Tableau.get columnar row column = Tableau.get dense row column) ∧
      ∀ {n : Nat} (p : StandardForm α n) (rule : PivotRule) (threshold places : Nat),
        let columnar : Simplex (Columnar α) α := (Simplex.new p rule threshold places).solve
        let dense : Simplex (Dense α) α := (Simplex.new p rule threshold places).solve
        columnar.state = dense.state ∧ columnar.iterations = dense.iterations ∧
          columnar.report = dense.report := by
  refine ⟨fun rows operations => ?_, fun p rule threshold places => ?_⟩
  · have h := Tableau.grid_columnar_eq_dense rows operations
    exact ⟨Tableau.wellFormed_perform rows operations, congrArg Grid.nrRows h,
      congrArg Grid.nrColumns h, congrFun₂ (congrArg Grid.get h)⟩
  · have h := Simplex.map_grid_columnar_eq_dense p rule threshold places
    exact ⟨by simpa using congrArg Simplex.state h, by simpa using congrArg Simplex.iterations h,
      by simpa using congrArg Simplex.report h⟩

/-- Two pivots in one row, a sign, a column that is written twice, a removed row, and a column
that is cut off and added again. -/
def sampleOperations : List (Tableau.Operation Rat) :=
  [.pivot 3 0, .pivot 1 2, .pivot 1 1, .negateRow 2, .addColumn, .set 2 5 1, .set 3 5 2,
    .removeRow 1, .truncateColumns 4, .addColumn]

theorem sampleOperations_columnar :
    let rows : List (List Rat) :=
      [[5, 4, 6, 0, 0], [1, 1, 1, 1, 60], [1, 1 / 2, 0, 0, 32], [3, 0, 1, 0, 43]]
    let columnar : Columnar Rat := Tableau.perform (Tableau.ofRows rows) sampleOperations
    let p : StandardForm Rat 2 := ⟨#v[1, 1], [⟨#v[1, 2], 4⟩, ⟨#v[3, 1], 6⟩, ⟨#v[4, 3], 10⟩]⟩
    let solved : Simplex (Columnar Rat) Rat := (Simplex.new p .largestCoefficient 5 7).solve
    columnar.WellFormed ∧
      Tableau.toRows columnar =
        [[0, 0, 5 / 3, -4, 0], [0, 0, 2 / 3, 1 / 2, 0], [1, 0, 1 / 3, 0, 0]] ∧
      solved.state = .solved ∧ solved.report.x = [1.6, 1.2] := by
  obtain ⟨hstorage, hsimplex⟩ := columnar_refines_dense (α := Rat)
  obtain ⟨hfit, hrows, hcolumns, hget⟩ := hstorage
    [[5, 4, 6, 0, 0], [1, 1, 1, 1, 60], [1, 1 / 2, 0, 0, 32], [3, 0, 1, 0, 43]] sampleOperations
  obtain ⟨hstate, -, hreport⟩ := hsimplex
    ⟨#v[1, 1], [⟨#v[1, 2], 4⟩, ⟨#v[3, 1], 6⟩, ⟨#v[4, 3], 10⟩]⟩ .largestCoefficient 5 7
  refine ⟨hfit, (Tableau.toRows_congr hrows hcolumns hget).trans ?_, hstate.trans ?_,
    (congrArg Report.x hreport).trans ?_⟩
  · decide +kernel
  · decide +kernel
  · decide +kernel

end LinProg
