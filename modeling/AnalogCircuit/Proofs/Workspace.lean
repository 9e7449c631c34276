import AnalogCircuit.Proofs.Execution
import AnalogCircuit.Program.Workspace
/-!
# Buffers hold nothing back

A program that computes its corrections in buffers which all loops share leaves the same registers as one that
computes them anew. The part of the Jacobian that a loop uses is zero except at the entries that every pass writes;
residuals, factors and corrections are written before they are read. So whatever earlier loops left in the buffers
has no effect, and only their size matters.
-/

namespace AnalogCircuit

variable {α : Type} [Scalar α]

/-! ## Writing groups of registers -/

namespace Layout

omit [Scalar α] in
theorem fill_cons (first : Nat) (v : α) (vs : List α) (rs : Registers α) :
    fill first (v :: vs) rs = fill (first + 1) vs (rs.write first v) := rfl

omit [Scalar α] in
@[simp] theorem size_fill (first : Nat) (vs : List α) (rs : Registers α) :
    (fill first vs rs).size = rs.size := by
  induction vs generalizing first rs with
  | nil => rfl
  | cons v vs ih => rw [fill_cons, ih, Registers.size_write]

omit [Scalar α] in
theorem getElem?_fill_of_lt {first r : Nat} (h : r < first) (vs : List α) (rs : Registers α) :
    (fill first vs rs)[r]? = rs[r]? := by
  induction vs generalizing first rs with
  | nil => rfl
  | cons v vs ih =>
    rw [fill_cons, ih (Nat.lt_succ_of_lt h)]
    exact Array.getElem?_setIfInBounds_ne (Nat.ne_of_lt h).symm

omit [Scalar α] in
theorem getElem?_fill_of_ge {first r : Nat} {vs : List α} (h : first + vs.length ≤ r) (rs : Registers α) :
    (fill first vs rs)[r]? = rs[r]? := by
  induction vs generalizing first rs with
  | nil => rfl
  | cons v vs ih =>
    rw [List.length_cons] at h
    rw [fill_cons, ih (by omega)]
    exact Array.getElem?_setIfInBounds_ne (by omega)

omit [Scalar α] in
theorem getElem?_fill {first i : Nat} {vs : List α} {rs : Registers α} (inside : i < vs.length)
    (size : first + i < rs.size) : (fill first vs rs)[first + i]? = vs[i]? := by
  induction vs generalizing first i rs with
  | nil => exact absurd inside (Nat.not_lt_zero _)
  | cons v vs ih =>
    rw [fill_cons]
    cases i with
    | zero =>
      change (fill (first + 1) vs (rs.write first v))[first]? = some v
      rw [getElem?_fill_of_lt (Nat.lt_succ_self first)]
      exact Array.getElem?_setIfInBounds_self_of_lt size
    | succ i =>
      have shift : first + (i + 1) = first + 1 + i := by omega
      rw [List.getElem?_cons_succ, shift]
      refine ih (Nat.lt_of_succ_lt_succ inside) ?_
      rw [Registers.size_write]
      omega

/-- Registers outside of the group keep their values. -/
theorem value_fill_of_not_mem {first r : Nat} {vs : List α} (h : r < first ∨ first + vs.length ≤ r)
    (rs : Registers α) : (fill first vs rs).value r = rs.value r := by
  unfold Registers.value
  rw [Array.getD_eq_getD_getElem?, Array.getD_eq_getD_getElem?]
  rcases h with h | h
  · rw [getElem?_fill_of_lt h]
  · rw [getElem?_fill_of_ge h]

/-- Registers of the group have the given values. -/
theorem value_fill {first i : Nat} {vs : List α} {rs : Registers α} (inside : i < vs.length)
    (size : first + i < rs.size) : (fill first vs rs).value (first + i) = vs[i] := by
  unfold Registers.value
  rw [Array.getD_eq_getD_getElem?, getElem?_fill inside size, List.getElem?_eq_getElem inside]
  rfl

/-- A group that is cleared reads as zero, whether its registers exist or not. -/
theorem value_fill_replicate {first n r : Nat} (low : first ≤ r) (high : r < first + n) (rs : Registers α) :
    (fill first (List.replicate n 0) rs).value r = 0 := by
  obtain ⟨i, rfl⟩ := Nat.exists_eq_add_of_le low
  by_cases size : first + i < rs.size
  · rw [value_fill (by rw [List.length_replicate]; omega) size, List.getElem_replicate]
  · unfold Registers.value
    rw [Array.getD_eq_getD_getElem?, Array.getElem?_eq_none (by rw [size_fill]; omega)]
    rfl

omit [Scalar α] in
/-- Values that are written to the front of a buffer are found there. -/
theorem take_fill {vs : List α} {a : Array α} (size : vs.length ≤ a.size) :
    (fill 0 vs a).toList.take vs.length = vs := by
  refine List.ext_getElem? fun i => ?_
  rw [List.getElem?_take, Array.getElem?_toList]
  split
  · next inside =>
    have h : (fill 0 vs a)[0 + i]? = vs[i]? := getElem?_fill inside (by omega)
    rwa [Nat.zero_add] at h
  · next outside => exact (List.getElem?_eq_none (Nat.le_of_not_lt outside)).symm

end Layout

/-! ## Entries of a Jacobian -/

/-- Writes the entries of a Jacobian of `n` unknowns to their cells. -/
def scatter (n : Nat) (rs : Registers α) (entries : List (Nat × Nat × Reg)) (a : Array α) : Array α :=
  entries.foldl (fun a x => a.setIfInBounds (x.1 * n + x.2.1) (rs.value x.2.2)) a

/-- The cells that are written. -/
def cells (n : Nat) (entries : List (Nat × Nat × Reg)) : List Nat := entries.map fun x => x.1 * n + x.2.1

@[simp] theorem size_scatter (n : Nat) (rs : Registers α) (entries : List (Nat × Nat × Reg)) (a : Array α) :
    (scatter n rs entries a).size = a.size := by
  induction entries generalizing a with
  | nil => rfl
  | cons x entries ih => exact (ih _).trans Array.size_setIfInBounds

/-- Cells that are not written keep their values. -/
theorem getElem?_scatter_of_not_mem {n k : Nat} {entries : List (Nat × Nat × Reg)} (h : k ∉ cells n entries)
    (rs : Registers α) (a : Array α) : (scatter n rs entries a)[k]? = a[k]? := by
  induction entries generalizing a with
  | nil => rfl
  | cons x entries ih =>
    have other : x.1 * n + x.2.1 ≠ k := fun same => h (same ▸ List.mem_cons_self)
    exact (ih (fun later => h (List.mem_cons_of_mem _ later)) _).trans (Array.getElem?_setIfInBounds_ne other)

/-- A cell that is written holds the value that all entries for it have. -/
theorem getElem?_scatter_of_mem {n k : Nat} {entries : List (Nat × Nat × Reg)} (h : k ∈ cells n entries)
    {rs : Registers α} {v : α} (same : ∀ x ∈ entries, x.1 * n + x.2.1 = k → rs.value x.2.2 = v)
    {a : Array α} (size : k < a.size) : (scatter n rs entries a)[k]? = some v := by
  induction entries generalizing a with
  | nil => exact absurd h List.not_mem_nil
  | cons x entries ih =>
    obtain ⟨first, others⟩ := List.forall_mem_cons.mp same
    by_cases later : k ∈ cells n entries
    · exact ih later others (Nat.lt_of_lt_of_eq size Array.size_setIfInBounds.symm)
    · have now : x.1 * n + x.2.1 = k := ((List.mem_cons.mp h).resolve_right later).symm
      refine (getElem?_scatter_of_not_mem later rs _).trans ?_
      dsimp only
      rw [now, Array.getElem?_setIfInBounds_self_of_lt size, first now]

/-- Two buffers agree on a cell if they did, or if it is written in both. -/
theorem getElem?_scatter_congr {n k : Nat} {entries : List (Nat × Nat × Reg)} (rs : Registers α)
    {a b : Array α} (ha : k < a.size) (hb : k < b.size) (h : k ∉ cells n entries → a[k]? = b[k]?) :
    (scatter n rs entries a)[k]? = (scatter n rs entries b)[k]? := by
  induction entries generalizing a b with
  | nil => exact h List.not_mem_nil
  | cons x entries ih =>
    refine ih (by rwa [Array.size_setIfInBounds]) (by rwa [Array.size_setIfInBounds]) fun later => ?_
    by_cases same : x.1 * n + x.2.1 = k
    · dsimp only
      rw [same, Array.getElem?_setIfInBounds_self_of_lt ha, Array.getElem?_setIfInBounds_self_of_lt hb]
    · rw [Array.getElem?_setIfInBounds_ne same, Array.getElem?_setIfInBounds_ne same]
      exact h fun now => (List.mem_cons.mp now).elim (Ne.symm same) later

/-! ## Passes -/

namespace Loop

theorem entries_eq (l : Loop) (rs : Registers α) :
    l.entries rs = (scatter l.size rs l.jacobian (Array.replicate (l.size * l.size) 0)).toList := rfl

@[simp] theorem length_entries (l : Loop) (rs : Registers α) :
    (l.entries rs).length = l.size * l.size := by
  rw [entries_eq, Array.length_toList, size_scatter, Array.size_replicate]

/-- There is a residual for every iterated unknown. -/
def Squared (l : Loop) : Prop := l.residuals.length = l.size

end Loop

theorem Factors.length_solve {n : Nat} (f : Factors α n) (b : List α) : (f.solve b).length = n := by
  unfold solve backward
  dsimp only
  generalize (f.forward b).toArray = y
  refine Eq.trans ?_ (List.length_finRange (n := n))
  generalize List.finRange n = is
  induction is with
  | nil => rfl
  | cons i is ih => exact congrArg (· + 1) ih

namespace Scratch

/-- The buffers have room for a loop over `n` unknowns. -/
structure Fits (n : Nat) (s : Scratch α) : Prop where
  jacobian : n * n ≤ s.jacobian.size
  residual : n ≤ s.residual.size
  correction : n ≤ s.correction.size

/-- The cells that a loop uses for its Jacobian, but does not write, are zero. -/
def Clear (l : Loop) (s : Scratch α) : Prop :=
  ∀ k < l.size * l.size, k ∉ cells l.size l.jacobian → s.jacobian[k]? = some 0

variable {s : Scratch α} {l : Loop}

omit [Scalar α] in
theorem Fits.mono {m n : Nat} (h : s.Fits n) (le : m ≤ n) : s.Fits m :=
  ⟨Nat.le_trans (Nat.mul_le_mul le le) h.jacobian, Nat.le_trans le h.residual, Nat.le_trans le h.correction⟩

theorem fits_ofSize (n : Nat) : (ofSize n : Scratch α).Fits n := by
  constructor <;> simp [ofSize]

theorem Fits.prepare {n : Nat} (h : s.Fits n) (m : Nat) : (s.prepare m).Fits n :=
  ⟨by rw [Scratch.prepare, Layout.size_fill]; exact h.jacobian, h.residual, h.correction⟩

theorem Fits.load {n : Nat} (h : s.Fits n) (l : Loop) (rs : Registers α) : (s.load l rs).Fits n :=
  ⟨Nat.le_trans h.jacobian (Nat.le_of_eq (size_scatter l.size rs l.jacobian s.jacobian).symm),
    by rw [Scratch.load, Layout.size_fill]; exact h.residual, h.correction⟩

theorem Fits.solve {n : Nat} (h : s.Fits n) (m : Nat) : (s.solve m).Fits n :=
  ⟨h.jacobian, h.residual, by rw [Scratch.solve, Layout.size_fill]; exact h.correction⟩

/-- A loop begins with a Jacobian of zeros. -/
theorem clear_prepare (fits : s.Fits l.size) : (s.prepare l.size).Clear l := by
  intro k inside _
  have room := fits.jacobian
  have h : (Layout.fill 0 (List.replicate (l.size * l.size) 0) s.jacobian)[0 + k]? =
      (List.replicate (l.size * l.size) 0)[k]? :=
    Layout.getElem?_fill (by rwa [List.length_replicate]) (by omega)
  rw [Nat.zero_add] at h
  exact h.trans (List.getElem?_replicate_of_lt inside)

/-- A pass does not write the other cells. -/
theorem Clear.load (h : s.Clear l) (rs : Registers α) : (s.load l rs).Clear l :=
  fun k inside other => (getElem?_scatter_of_not_mem other rs s.jacobian).trans (h k inside other)

/-- A pass leaves the Jacobian of its own registers in the buffer, whatever was there before. -/
theorem jacobian_load (fits : s.Fits l.size) (clear : s.Clear l) (rs : Registers α) :
    (s.load l rs).jacobian.toList.take (l.size * l.size) = l.entries rs := by
  have room := fits.jacobian
  rw [Loop.entries_eq]
  refine List.ext_getElem? fun k => ?_
  rw [List.getElem?_take, Array.getElem?_toList, Array.getElem?_toList]
  split
  · next inside =>
    refine getElem?_scatter_congr rs (by omega) (by rwa [Array.size_replicate]) fun other => ?_
    rw [clear k inside other, Array.getElem?_replicate, if_pos inside]
  · next outside =>
    refine (Array.getElem?_eq_none ?_).symm
    rw [size_scatter, Array.size_replicate]
    exact Nat.le_of_not_lt outside

/-- A pass leaves its own residuals in the buffer. -/
theorem residual_load (fits : s.Fits l.size) (squared : l.Squared) (rs : Registers α) :
    (s.load l rs).residual.toList.take l.size = l.residuals.map rs.value := by
  have length : (l.residuals.map rs.value).length = l.size := by rw [List.length_map, squared]
  rw [← length]
  refine Layout.take_fill ?_
  rw [length]
  exact fits.residual

/-- Corrections are found where they have been written. -/
theorem correction_solve {f : Factors α l.size} (fits : s.Fits l.size) (factors : s.factors = ⟨l.size, f⟩) :
    (s.solve l.size).correction.toList.take l.size = f.solve (s.residual.toList.take l.size) := by
  have length := f.length_solve (s.residual.toList.take l.size)
  have room : (f.solve (s.residual.toList.take l.size)).length ≤ s.correction.size := by
    rw [length]
    exact fits.correction
  have h := Layout.take_fill room
  rw [length] at h
  unfold solve
  rw [factors]
  exact h

/-- A pass finds the factors and the corrections of its own registers, and leaves the buffers as the next one needs
them. -/
theorem pass (squared : l.Squared) {n : Nat} (large : l.size ≤ n) (fits : s.Fits n) (clear : s.Clear l)
    (rs : Registers α) :
    ∃ s' : Scratch α, (s.load l rs).factor l.size =
        (s', (Factors.factor (l.entries rs) : Factors α l.size × Option Error).2) ∧
      s'.Fits n ∧ s'.Clear l ∧ (s'.solve l.size).correction.toList.take l.size =
        (Factors.factor (l.entries rs) : Factors α l.size × Option Error).1.solve
          (l.residuals.map rs.value) := by
  let s' : Scratch α := { s.load l rs with factors := ⟨l.size, (Factors.factor (l.entries rs)).1⟩ }
  have loaded := fits.load l rs
  have fits' : s'.Fits n := ⟨loaded.jacobian, loaded.residual, loaded.correction⟩
  refine ⟨s', ?_, fits', clear.load rs, ?_⟩
  · unfold factor
    rw [jacobian_load (fits.mono large) clear]
  · rw [← residual_load (fits.mono large) squared rs]
    exact correction_solve (fits'.mono large) rfl

end Scratch

/-! ## Loops -/

namespace Loop

open Scratch

variable {l : Loop}

theorem corrections?_eq_none {rs : Registers α} {e : Error}
    (h : (Factors.factor (l.entries rs) : Factors α l.size × Option Error).2 = some e) :
    l.corrections? rs = none := by
  unfold corrections?
  split
  · next f found => rw [found] at h; cases h
  · rfl

theorem corrections?_eq_some {rs : Registers α}
    (h : (Factors.factor (l.entries rs) : Factors α l.size × Option Error).2 = none) :
    l.corrections? rs = some ((Factors.factor (l.entries rs) : Factors α l.size × Option Error).1.solve
      (l.residuals.map rs.value)) := by
  unfold corrections?
  split
  · next f found => rw [found]
  · next e found => rw [found] at h; cases h

/-- A loop computes its corrections in the buffers as it would without them. -/
theorem iterateIn_registers (squared : l.Squared) (tolerance : α) (budget : Nat) {w : Workspace α}
    (clear : w.scratch.Clear l) {n : Nat} (large : l.size ≤ n) (fits : w.scratch.Fits n) :
    (l.iterateIn tolerance budget w).registers = l.iterate tolerance budget w.registers ∧
      (l.iterateIn tolerance budget w).scratch.Fits n := by
  induction budget generalizing w with
  | zero => exact ⟨rfl, fits⟩
  | succ budget ih =>
    unfold iterateIn iterate
    dsimp only
    obtain ⟨s, factored, fits', clear', corrections⟩ :=
      pass squared large fits clear (executeAll l.body w.registers)
    rw [factored]
    cases h : (Factors.factor (l.entries (executeAll l.body w.registers)) :
        Factors α l.size × Option Error).2 with
    | some e =>
      rw [corrections?_eq_none h]
      exact ⟨rfl, fits'⟩
    | none =>
      rw [corrections?_eq_some h]
      dsimp only
      rw [corrections]
      split
      · exact ⟨rfl, fits'.solve l.size⟩
      · exact ih clear' (fits'.solve l.size)

/-- A loop may find anything in the buffers. -/
theorem runIn_registers (squared : l.Squared) (tolerance : α) (budget : Nat) {w : Workspace α}
    {n : Nat} (large : l.size ≤ n) (fits : w.scratch.Fits n) :
    (l.runIn tolerance budget w).registers = l.iterate tolerance budget (l.begin w.registers) ∧
      (l.runIn tolerance budget w).scratch.Fits n :=
  iterateIn_registers squared tolerance budget (clear_prepare (fits.mono large)) large
    (fits.prepare l.size)

end Loop

/-! ## Programs -/

namespace Program

variable {p : Program α}

/-- Every loop has a residual for every unknown. -/
def Squared (p : Program α) : Prop := ∀ l, Block.newton l ∈ p.blocks → l.Squared

/-- The buffers have room for every loop. -/
def Roomy (p : Program α) (s : Scratch α) : Prop := s.Fits p.loopSize

omit [Scalar α] in
theorem size_le_loopSize {l : Loop} (h : Block.newton l ∈ p.blocks) : l.size ≤ p.loopSize := by
  have fold (bs : List Block) (m : Nat) : m ≤ bs.foldl (fun n b => max n b.size) m ∧
      ∀ b ∈ bs, b.size ≤ bs.foldl (fun n b => max n b.size) m := by
    induction bs generalizing m with
    | nil => exact ⟨Nat.le_refl _, fun _ h => absurd h List.not_mem_nil⟩
    | cons b bs ih =>
      obtain ⟨first, others⟩ := ih (max m b.size)
      refine ⟨Nat.le_trans (Nat.le_max_left _ _) first, List.forall_mem_cons.mpr ⟨?_, others⟩⟩
      exact Nat.le_trans (Nat.le_max_right _ _) first
  exact (fold p.blocks 0).2 _ h

theorem roomy_workspace (p : Program α) : p.Roomy p.workspace.scratch := Scratch.fits_ofSize _

/-- Blocks of the program leave the same registers whatever is in the buffers. -/
theorem foldl_run_registers (squared : p.Squared) (budget : Nat) {bs : List Block}
    (sub : ∀ b ∈ bs, b ∈ p.blocks) {w : Workspace α} (roomy : p.Roomy w.scratch) :
    (bs.foldl (fun w b => b.run p.tolerance budget w) w).registers =
        bs.foldl (fun rs b => b.execute p.tolerance budget rs) w.registers ∧
      p.Roomy (bs.foldl (fun w b => b.run p.tolerance budget w) w).scratch := by
  induction bs generalizing w with
  | nil => exact ⟨rfl, roomy⟩
  | cons b bs ih =>
    obtain ⟨hb, sub⟩ := List.forall_mem_cons.mp sub
    have block : (b.run p.tolerance budget w).registers = b.execute p.tolerance budget w.registers ∧
        p.Roomy (b.run p.tolerance budget w).scratch := by
      cases b with
      | straight is => exact ⟨rfl, roomy⟩
      | newton l =>
        exact Loop.runIn_registers (squared l hb) p.tolerance budget (size_le_loopSize hb) roomy
    obtain ⟨registers, roomy⟩ := block
    rw [List.foldl_cons, List.foldl_cons, ← registers]
    exact ih sub roomy

/-- So does a sample. -/
theorem run_registers (squared : p.Squared) (budget : Nat) {w : Workspace α} (roomy : p.Roomy w.scratch) :
    (p.run budget w).registers = p.step budget w.registers ∧ p.Roomy (p.run budget w).scratch :=
  foldl_run_registers squared budget (fun _ h => h) roomy

end Program

end AnalogCircuit
