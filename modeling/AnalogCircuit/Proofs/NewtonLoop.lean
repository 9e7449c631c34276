import AnalogCircuit.Proofs.Factors
import AnalogCircuit.Proofs.GroundedProgram
/-!
# Loops are Newton iterations

A pass of the loop of an iteration computes the residuals and the entries of their Jacobian at the estimates with
which it begins, whatever was computed for it in front of the loop or in the pass before. So the corrections solve
the linear equations of Newton's method, and the next estimates are exactly those of the symbolic system.
-/

namespace AnalogCircuit

open Expr

variable {α : Type}

/-! ## Values of an iteration -/

theorem Expr.evaluate_of_isZero [ExactScalar α] {ℓ : Symbol → Option α} {e : Expr α} (h : e.isZero = true) :
    e.evaluate ℓ = some 0 := by
  cases e with
  | num v => exact congrArg some (Scalar.isZero_iff.mp h)
  | _ => cases h

namespace NewtonIteration

section

variable [Scalar α] {n : NewtonIteration α}

/-- The residuals and the rows of the Jacobian have these values. -/
structure Evaluates (n : NewtonIteration α) (ℓ : Symbol → Option α) (residuals : List α)
    (jacobian : List (List α)) : Prop where
  residuals : evaluateList ℓ n.residuals = some residuals
  jacobian : n.jacobian.mapM (evaluateList ℓ) = some jacobian

/-- The entries are the partial derivatives that are not zero everywhere. -/
theorem mem_entries {i j : Nat} {e : Expr α} : (i, j, e) ∈ n.entries ↔
    ∃ r u, n.residuals[i]? = some r ∧ n.unknowns[j]? = some u ∧ r.diff u = e ∧ e.isZero = false := by
  unfold entries jacobian
  simp only [List.mem_flatMap, List.mem_filterMap, Prod.exists, List.mk_mem_zipIdx_iff_getElem?,
    List.getElem?_map, Option.map_eq_some_iff]
  constructor
  · rintro ⟨row, i', ⟨r, hr, rfl⟩, e', j', he, h⟩
    rw [List.getElem?_map, Option.map_eq_some_iff] at he
    obtain ⟨u, hu, rfl⟩ := he
    split at h
    · cases h
    · next nonzero =>
      cases h
      exact ⟨r, u, hr, hu, rfl, Bool.not_eq_true _ ▸ nonzero⟩
  · rintro ⟨r, u, hr, hu, rfl, nonzero⟩
    refine ⟨_, i, ⟨r, hr, rfl⟩, r.diff u, j, ?_, ?_⟩
    · rw [List.getElem?_map, hu]
      rfl
    · rw [if_neg (by rw [nonzero]; exact Bool.false_ne_true)]

end

variable [ExactScalar α] {n : NewtonIteration α}

/-- The values of the residuals. -/
def residualValues (n : NewtonIteration α) (ℓ : Symbol → Option α) : List α := n.residuals.map (value ℓ)

/-- The values of the rows of the Jacobian. -/
def jacobianValues (n : NewtonIteration α) (ℓ : Symbol → Option α) : List (List α) :=
  n.residuals.map fun r => n.unknowns.map fun u => value ℓ (r.diff u)

theorem length_of_mem_jacobianValues {ℓ : Symbol → Option α} {row : List α} (h : row ∈ n.jacobianValues ℓ) :
    row.length = n.unknowns.length := by
  obtain ⟨r, -, rfl⟩ := List.mem_map.mp h
  exact List.length_map _

theorem length_jacobianValues {ℓ : Symbol → Option α} (square : n.residuals.length = n.unknowns.length) :
    (n.jacobianValues ℓ).flatten.length = n.unknowns.length * n.unknowns.length := by
  rw [List.length_flatten, List.map_congr_left fun row => length_of_mem_jacobianValues, List.map_const',
    List.sum_replicate, smul_eq_mul]
  exact congrArg (· * _) ((List.length_map _).trans square)

theorem getElem?_jacobianValues {ℓ : Symbol → Option α} {i j : Nat} {r : Expr α} {u : Symbol}
    (hr : n.residuals[i]? = some r) (hu : n.unknowns[j]? = some u) :
    (n.jacobianValues ℓ).flatten[i * n.unknowns.length + j]? = some (value ℓ (r.diff u)) := by
  rw [Factors.getElem?_flatten (fun row => length_of_mem_jacobianValues) (List.getElem?_eq_some_iff.mp hu).1]
  unfold jacobianValues
  rw [List.getElem?_map, hr, Option.map_some, Option.bind_some, List.getElem?_map, hu]
  rfl

/-- The Jacobian has a value where all its entries that are emitted have one. -/
theorem hasValue_diff {ℓ : Symbol → Option α} (entries : ∀ x ∈ n.entries, HasValue ℓ x.2.2) {r : Expr α}
    (hr : r ∈ n.residuals) {u : Symbol} (hu : u ∈ n.unknowns) : HasValue ℓ (r.diff u) := by
  cases zero : (r.diff u).isZero with
  | true =>
    rw [HasValue, evaluate_of_isZero zero]
    rfl
  | false =>
    obtain ⟨i, hi⟩ := List.getElem?_of_mem hr
    obtain ⟨j, hj⟩ := List.getElem?_of_mem hu
    exact entries (i, j, r.diff u) (mem_entries.mpr ⟨r, u, hi, hj, rfl, zero⟩)

/-- An iteration has values if all its residuals and entries have. -/
theorem evaluates {ℓ : Symbol → Option α} (residuals : ∀ r ∈ n.residuals, HasValue ℓ r)
    (entries : ∀ x ∈ n.entries, HasValue ℓ x.2.2) :
    n.Evaluates ℓ (n.residualValues ℓ) (n.jacobianValues ℓ) := by
  refine ⟨evaluateList_eq_some residuals, ?_⟩
  have rows (rs : List (Expr α)) (sub : ∀ r ∈ rs, r ∈ n.residuals) :
      (rs.map fun r => n.unknowns.map r.diff).mapM (evaluateList ℓ) =
        some (rs.map fun r => n.unknowns.map fun u => value ℓ (r.diff u)) := by
    induction rs with
    | nil => rfl
    | cons r rs ih =>
      obtain ⟨hr, sub⟩ := List.forall_mem_cons.mp sub
      have row : evaluateList ℓ (n.unknowns.map r.diff) = some (n.unknowns.map fun u => value ℓ (r.diff u)) := by
        rw [evaluateList_eq_some (List.forall_mem_map.mpr fun u hu => hasValue_diff entries hr hu), List.map_map]
        rfl
      rw [List.map_cons, List.mapM_cons, row, ih sub]
      rfl
  exact rows n.residuals fun _ h => h

end NewtonIteration

/-- Lists that are related element by element have related elements. -/
theorem exists_of_forall₂ {β γ : Type} {R : β → γ → Prop} {bs : List β} {cs : List γ}
    (h : List.Forall₂ R bs cs) : (∀ c ∈ cs, ∃ b ∈ bs, R b c) ∧ ∀ b ∈ bs, ∃ c ∈ cs, R b c := by
  induction h with
  | nil => exact ⟨fun _ h => absurd h List.not_mem_nil, fun _ h => absurd h List.not_mem_nil⟩
  | cons first _ ih =>
    refine ⟨List.forall_mem_cons.mpr ⟨⟨_, List.mem_cons_self, first⟩, fun c hc => ?_⟩,
      List.forall_mem_cons.mpr ⟨⟨_, List.mem_cons_self, first⟩, fun b hb => ?_⟩⟩
    · obtain ⟨b, hb, related⟩ := ih.1 c hc
      exact ⟨b, List.mem_cons_of_mem _ hb, related⟩
    · obtain ⟨c, hc, related⟩ := ih.2 b hb
      exact ⟨c, List.mem_cons_of_mem _ hc, related⟩

/-- Different cells of a matrix stand at different places of the list of its rows. -/
theorem cell_inj {m i j i' j' : Nat} (hj : j < m) (hj' : j' < m) (same : i * m + j = i' * m + j') :
    i = i' ∧ j = j' := by
  have row {i j : Nat} (hj : j < m) : (i * m + j) / m = i := by
    rw [Nat.add_comm, Nat.add_mul_div_right _ _ (Nat.zero_lt_of_lt hj), Nat.div_eq_of_lt hj, Nat.zero_add]
  have first : i = i' := by rw [← row (i := i) hj, same, row hj']
  subst first
  exact ⟨rfl, Nat.add_left_cancel same⟩

namespace Program

open Emission Emit

variable {law : UpdateLaw α} {n : NewtonIteration α}

/-! ## The loop of an iteration -/

/-- Entries are emitted as their expressions are. -/
theorem mapM_entries [Scalar α] {registerOf : Symbol → Option Reg} {es : List (Nat × Nat × Expr α)}
    {s s' : Emission α} {jacobian : List (Nat × Nat × Reg)}
    (h : es.mapM (fun e => (do return (e.1, e.2.1, ← Emit.expr registerOf e.2.2) : Emit α (Nat × Nat × Reg))) s =
      .ok (jacobian, s')) :
    (es.map (·.2.2)).mapM (Emit.expr registerOf) s = .ok (jacobian.map (·.2.2), s') ∧
      List.Forall₂ (fun e x => x.1 = e.1 ∧ x.2.1 = e.2.1) es jacobian := by
  induction es generalizing s jacobian with
  | nil =>
    cases h
    exact ⟨rfl, .nil⟩
  | cons e es ih =>
    rw [List.mapM_cons] at h
    obtain ⟨x, s₁, h₁, h⟩ := bind_eq_ok h
    obtain ⟨xs, s₂, h₂, h⟩ := bind_eq_ok h
    obtain ⟨r, s₃, emitted, h₁⟩ := bind_eq_ok h₁
    cases h₁
    cases h
    obtain ⟨rest, places⟩ := ih h₂
    refine ⟨?_, .cons ⟨rfl, rfl⟩ places⟩
    rw [List.map_cons, List.mapM_cons]
    change ((Emit.expr registerOf e.2.2 s) >>= fun y => _) = _
    rw [emitted]
    change ((es.map (·.2.2)).mapM (Emit.expr registerOf) s₁ >>= fun y => _) = _
    rw [rest]
    rfl

section

variable [ExactScalar α]

/-- The loop computes what the iteration says, in the state in which it is closed. -/
structure LoopComputes (law : UpdateLaw α) (n : NewtonIteration α) (s : Emission α) (l : Loop) : Prop where
  sound : Sound (registerOf law) (layoutOf law).size (fun _ => True) [] s
  front : ∀ i ∈ s.pending, (layoutOf law).size ≤ i.target
  body : l.body = s.inner
  unknowns : l.unknowns = iteratedUnknowns law n
  varying : ∀ r ∈ l.unknowns.map (·.1), r ∈ s.varying
  emittable : ∀ e ∈ n.residuals ++ n.entries.map (·.2.2), e.isEmittable (bound (registerOf law)) = true
  residuals : List.Forall₂ (fun e r => s.Carries [] r fun ρ => e.value (contents (registerOf law) ρ))
    n.residuals l.residuals
  jacobian : List.Forall₂ (fun e x => (x.1 = e.1 ∧ x.2.1 = e.2.1) ∧
    s.Carries [] x.2.2 fun ρ => e.2.2.value (contents (registerOf law) ρ)) n.entries l.jacobian

theorem newtonBlocks_computes {blocks : List Block} {s : Emission α}
    (powers : ∀ e ∈ n.residuals ++ n.entries.map (·.2.2), e.hasIntegralPowers = true)
    (h : newtonBlocks law (registerOf law) n (.start (layoutOf law).size) = .ok (blocks, s)) :
    ∃ s₁ l, LoopComputes law n s₁ l ∧ blocks = s₁.flush.1 ++ [.newton l] ∧ s = s₁.closeLoop.2.flush.2 := by
  obtain ⟨residuals, jacobian, s₁, s₂, h₁, h₂, rfl, rfl⟩ := newtonBlocks_steps h
  have fixed := iteratedRegisters_lt law n
  have admissible (e : Expr α) (he : e ∈ n.residuals ++ n.entries.map (·.2.2)) :
      Admissible (registerOf law) (layoutOf law).size (fun _ => True) e :=
    ⟨powers e he, fun x _ r hr => ⟨registerOf_lt hr, trivial⟩⟩
  obtain ⟨emitted, places⟩ := mapM_entries h₂
  obtain ⟨emittable₁, provides₁⟩ := (mapM_yields (fun e he => admissible e (List.mem_append_left _ he))
    (sound_openLoop fixed)).of_ok h₁
  obtain ⟨emittable₂, provides₂⟩ := (mapM_yields (fun e he => admissible e (List.mem_append_right _ he))
    provides₁.sound).of_ok emitted
  have ext := provides₁.extends_.trans provides₂.extends_
  refine ⟨s₂, ⟨iteratedUnknowns law n, s₂.inner, residuals, jacobian⟩, ⟨provides₂.sound, fun i hi => ?_, rfl, rfl,
    fun r hr => (ext.varying r (fixed r hr)).mpr hr, List.forall_mem_append.mpr ⟨emittable₁, emittable₂⟩, ?_, ?_⟩,
    rfl, rfl⟩
  · exact (ext.written i hi).resolve_left List.not_mem_nil
  · exact provides₁.carries.imp fun e r hr => provides₂.extends_.carries hr.1.1 hr.2
  · have carries := List.forall₂_map_right_iff.mp (List.forall₂_map_left_iff.mp provides₂.carries)
    obtain ⟨length, places⟩ := List.forall₂_iff_zip.mp places
    exact List.forall₂_iff_zip.mpr ⟨length, fun h =>
      ⟨places h, ((List.forall₂_iff_zip.mp carries).2 h).2⟩⟩

/-! ## Passes -/

/-- The registers while the loop runs: there are enough of them, and all that is outside of the loop holds. -/
structure Running (s : Emission α) (rs : Registers α) : Prop where
  size : s.next ≤ rs.size
  obeyed : Obeyed [] s False rs.value

namespace LoopComputes

variable {s : Emission α} {l : Loop} {rs : Registers α}

theorem running_pass (h : LoopComputes law n s l) (running : Running s rs) :
    Running s (executeAll l.body rs) := by
  rw [h.body]
  exact ⟨running.size.trans (size_executeAll ..).ge, h.sound.obeyed_pass running.size running.obeyed⟩

/-- A change of the iterated registers concerns nothing outside of the loop. -/
theorem running_change (h : LoopComputes law n s l) (running : Running s rs) {rs' : Registers α}
    (size : rs'.size = rs.size) (same : ∀ r ∉ l.unknowns.map (·.1), rs'.value r = rs.value r) :
    Running s rs' :=
  ⟨running.size.trans size.ge, h.sound.obeyed_of_agree running.obeyed fun r hr =>
    same r fun hi => hr (h.varying r hi)⟩

/-- A pass writes no fixed register. -/
theorem value_pass (h : LoopComputes law n s l) {r : Reg} (fixed : r < (layoutOf law).size) :
    (executeAll l.body rs).value r = rs.value r := by
  refine value_executeAll_of_ne (fun i hi => ?_) rs
  rw [h.body] at hi
  exact Nat.ne_of_gt (Nat.lt_of_lt_of_le fixed (h.sound.inner i hi).1)

theorem symbols_pass (h : LoopComputes law n s l) :
    symbols law (executeAll l.body rs) = symbols law rs := by
  funext x
  change (registerOf law x).map _ = (registerOf law x).map _
  cases found : registerOf law x with
  | none => rfl
  | some r => exact congrArg some (h.value_pass (registerOf_lt found))

theorem hasValue (h : LoopComputes law n s l) {e : Expr α} (he : e ∈ n.residuals ++ n.entries.map (·.2.2)) :
    HasValue (symbols law rs) e := Emit.hasValue (h.emittable e he) rs.value

/-- After a pass a register that carries a value holds it. -/
theorem value_carried (h : LoopComputes law n s l) (running : Running s rs) {e : Expr α} {r : Reg}
    (carries : s.Carries [] r fun ρ => e.value (contents (registerOf law) ρ)) :
    (executeAll l.body rs).value r = e.value (symbols law rs) := by
  have obeyed : Obeyed [] s (r ∈ s.varying) (executeAll l.body rs).value := by
    rw [h.body]
    exact h.sound.obeyed_pass running.size running.obeyed
  have same : symbols law (executeAll l.body rs) = symbols law rs := h.symbols_pass
  rw [← carries _ obeyed, ← same]

/-- A pass computes the residuals. -/
theorem residuals_pass (h : LoopComputes law n s l) (running : Running s rs) :
    l.residuals.map (executeAll l.body rs).value = n.residualValues (symbols law rs) := by
  have carries := h.residuals
  unfold NewtonIteration.residualValues
  generalize n.residuals = es, l.residuals = regs at carries
  induction carries with
  | nil => rfl
  | cons hr _ ih => rw [List.map_cons, List.map_cons, ih, h.value_carried running hr]

/-- The register of an entry holds the derivative that belongs to its cell. -/
theorem value_cell (h : LoopComputes law n s l) (running : Running s rs) {x : Nat × Nat × Reg}
    (hx : x ∈ l.jacobian) {i j : Nat} {r : Expr α} {u : Symbol} (hr : n.residuals[i]? = some r)
    (hu : n.unknowns[j]? = some u)
    (same : x.1 * n.unknowns.length + x.2.1 = i * n.unknowns.length + j) :
    (r.diff u).isZero = false ∧
      (executeAll l.body rs).value x.2.2 = value (symbols law rs) (r.diff u) := by
  obtain ⟨⟨i', j', e⟩, he, ⟨row, column⟩, carries⟩ := (exists_of_forall₂ h.jacobian).1 x hx
  obtain ⟨r', u', hr', hu', rfl, nonzero⟩ := NewtonIteration.mem_entries.mp he
  dsimp only at row column carries
  rw [row, column] at same
  obtain ⟨rfl, rfl⟩ :=
    cell_inj (List.getElem?_eq_some_iff.mp hu').1 (List.getElem?_eq_some_iff.mp hu).1 same
  cases hr.symm.trans hr'
  cases hu.symm.trans hu'
  exact ⟨nonzero, h.value_carried running carries⟩

/-- A pass computes the Jacobian: what it writes to the buffer are its rows, one after the other. -/
theorem entries_pass (h : LoopComputes law n s l) (size : l.size = n.unknowns.length)
    (square : n.residuals.length = n.unknowns.length) (running : Running s rs) :
    l.entries (executeAll l.body rs) = (n.jacobianValues (symbols law rs)).flatten := by
  refine List.ext_getElem? fun k => ?_
  by_cases inside : k < n.unknowns.length * n.unknowns.length
  · have positive : 0 < n.unknowns.length := Nat.pos_of_mul_pos_left (Nat.zero_lt_of_lt inside)
    obtain ⟨i, j, hi, hj, rfl⟩ : ∃ i j, i < n.residuals.length ∧ j < n.unknowns.length ∧
        k = i * n.unknowns.length + j :=
      ⟨k / n.unknowns.length, k % n.unknowns.length, (Nat.div_lt_of_lt_mul inside).trans_eq square.symm,
        Nat.mod_lt _ positive, (Nat.div_add_mod' _ _).symm⟩
    have hr := List.getElem?_eq_getElem hi
    have hu := List.getElem?_eq_getElem hj
    rw [NewtonIteration.getElem?_jacobianValues hr hu, Loop.entries_eq, Array.getElem?_toList, size]
    cases zero : (n.residuals[i].diff n.unknowns[j]).isZero with
    | true =>
      have unwritten : i * n.unknowns.length + j ∉ cells n.unknowns.length l.jacobian := by
        intro mem
        obtain ⟨x, hx, same⟩ := List.mem_map.mp mem
        rw [(h.value_cell running hx hr hu same).1] at zero
        cases zero
      rw [getElem?_scatter_of_not_mem unwritten, Array.getElem?_replicate, if_pos inside]
      exact congrArg some (value_of_evaluate (evaluate_of_isZero zero)).symm
    | false =>
      obtain ⟨x, hx, ⟨row, column⟩, -⟩ :=
        (exists_of_forall₂ h.jacobian).2 _ (NewtonIteration.mem_entries.mpr ⟨_, _, hr, hu, rfl, zero⟩)
      refine getElem?_scatter_of_mem (List.mem_map.mpr ⟨x, hx, by rw [row, column]⟩) (fun y hy same => ?_) ?_
      · exact (h.value_cell running hy hr hu same).2
      · rwa [Array.size_replicate]
  · have length := NewtonIteration.length_jacobianValues (ℓ := symbols law rs) square
    rw [List.getElem?_eq_none (Nat.le_of_not_lt (by rwa [Loop.length_entries, size])),
      List.getElem?_eq_none (Nat.le_of_not_lt (by rwa [length]))]

end LoopComputes

end

end Program

end AnalogCircuit
