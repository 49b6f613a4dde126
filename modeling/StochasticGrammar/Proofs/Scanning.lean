import StochasticGrammar.Proofs.Shape

/-!
# What scanning leaves

A scan that starts from an empty column and meets no faulty pattern leaves one cell for each cell
that takes the token, moved by one symbol, with the scores it had. A scan that is cut short by a
faulty pattern leaves its cells behind, and the next one adds to them; whatever came before, each
cell of the column has then been moved over some token.

> `scan_eq`: the scanned column in closed form.

> `Swept.scan`: what holds of a column after any number of scans into it.
-/

namespace StochasticGrammar.Parser

variable {P W : Type}

/-- The state waits for a terminal that takes the token. -/
def Takes (G : Grammar P W) (token : Payload) (s : State P W) : Prop :=
  ∃ c, s.next? = some c ∧ G.isTerminal c = true ∧ c.accepts token = .ok true

/-- A cell moved over a token. -/
def shifted (A : ScoreAlgebra P W) (position : Nat) (token : Payload) (cell : Cell P W) :
    Cell P W :=
  ⟨cell.state.advance position, A.add A.zero cell.forward, A.add A.zero cell.inner,
    cell.best.map fun b => ⟨.scanned, b.score, some cell.state, none, some token⟩⟩

variable [DecidableEq P] [DecidableEq W] {G : Grammar P W}

/-- A state that is new in the column is put at its end. -/
theorem shift_of_not_contains (A : ScoreAlgebra P W) {k : Nat} (token : Payload) {cell : Cell P W}
    {col : Column P W} (h : col.contains (cell.state.advance k) = false) :
    shift A k token cell col = col ++ [shifted A k token cell] := by
  unfold shift
  rw [Column.alter_of_not_contains A h]
  unfold shifted
  cases cell.best with
  | none => rfl
  | some b => rfl

/-! ## The first cell -/

/-- The state waits for nothing that the token belongs to, and for no faulty pattern. -/
def Passes (G : Grammar P W) (token : Payload) (s : State P W) : Prop :=
  ∀ c, s.next? = some c → G.isTerminal c = true → c.accepts token = .ok false

omit [DecidableEq P] [DecidableEq W] in
theorem Passes.not_takes {token : Payload} {s : State P W} (h : Passes G token s) :
    ¬ Takes G token s := by
  rintro ⟨c, hnext, hterm, haccepts⟩
  rw [h c hnext hterm] at haccepts
  cases haccepts

omit [DecidableEq P] [DecidableEq W] in
theorem Takes.accepts {token : Payload} {s : State P W} (h : Takes G token s) {c : Category}
    (hnext : s.next? = some c) : c.accepts token = .ok true := by
  obtain ⟨c', hnext', _, haccepts⟩ := h
  rw [hnext] at hnext'
  cases hnext'
  exact haccepts

/-- What a scan does with its first cell, whatever stands behind it: the cell is passed over, it is
moved over the token, or it is faulty and ends the scan. -/
theorem scan_cons_cases (G : Grammar P W) (k : Nat) (token : Payload) (cell : Cell P W) :
    (Passes G token cell.state ∧
        ∀ rest col, scan G k token (cell :: rest) col = scan G k token rest col) ∨
      (Takes G token cell.state ∧ ∀ rest col, scan G k token (cell :: rest) col
        = ((scan G k token rest (shift G.algebra k token cell col)).1,
            (scan G k token rest (shift G.algebra k token cell col)).2.map
              (cell.state.advance k :: ·))) ∨
      ∃ c e, cell.state.next? = some c ∧ G.isTerminal c = true ∧ c.accepts token = .error e ∧
        ∀ rest col, scan G k token (cell :: rest) col = (col, .error e) := by
  cases hnext : cell.state.next? with
  | none =>
    refine .inl ⟨fun c hc _ => ?_, fun rest col => by simp only [scan, hnext]⟩
    rw [hnext] at hc
    cases hc
  | some c =>
    by_cases hterm : G.isTerminal c = true
    · rcases haccepts : c.accepts token with e | (_ | _)
      · refine .inr (.inr ⟨c, e, rfl, hterm, haccepts, fun rest col => ?_⟩)
        simp only [scan, hnext, if_pos hterm, haccepts]
      · refine .inl ⟨fun c' hc' _ => ?_, fun rest col => ?_⟩
        · rw [hnext] at hc'
          cases hc'
          exact haccepts
        · simp only [scan, hnext, if_pos hterm, haccepts]
      · refine .inr (.inl ⟨⟨c, hnext, hterm, haccepts⟩, fun rest col => ?_⟩)
        simp only [scan, hnext, if_pos hterm, haccepts]
    · refine .inl ⟨fun c' hc' hterm' => ?_, fun rest col => ?_⟩
      · rw [hnext] at hc'
        cases hc'
        exact absurd hterm' hterm
      · simp only [scan, hnext, if_neg hterm]

/-- A scan goes to its end when the first cell is not faulty and the scan of the others does. -/
theorem scan_cons_eq_ok {k : Nat} {token : Payload} {cell : Cell P W} {rest col col' : Column P W}
    {found : List (State P W)} :
    scan G k token (cell :: rest) col = (col', .ok found) ↔
      (Passes G token cell.state ∧ scan G k token rest col = (col', .ok found)) ∨
      (Takes G token cell.state ∧ ∃ more, found = cell.state.advance k :: more ∧
        scan G k token rest (shift G.algebra k token cell col) = (col', .ok more)) := by
  rcases scan_cons_cases G k token cell with ⟨hpasses, hscan⟩ | ⟨htakes, hscan⟩ |
    ⟨c, e, hnext, hterm, haccepts, hscan⟩
  · simp only [hscan, hpasses, hpasses.not_takes, true_and, false_and, or_false]
  · have hno : ¬ Passes G token cell.state := fun h => h.not_takes htakes
    rw [hscan]
    rcases scan G k token rest (shift G.algebra k token cell col) with ⟨col'', e | more⟩
    · simp [hno, Except.map]
    · simp [hno, htakes, Except.map, and_comm, eq_comm]
  · have hno : ¬ Passes G token cell.state := by
      intro h
      rw [h c hnext hterm] at haccepts
      cases haccepts
    have hno' : ¬ Takes G token cell.state := by
      intro h
      rw [h.accepts hnext] at haccepts
      cases haccepts
    simp [hscan, hno, hno']

/-- A scan is cut short at its first cell or behind it. -/
theorem scan_cons_eq_error {k : Nat} {token : Payload} {cell : Cell P W}
    {rest col col' : Column P W} {e : Pattern.Error}
    (h : scan G k token (cell :: rest) col = (col', .error e)) :
    (∃ c, cell.state.next? = some c ∧ G.isTerminal c = true ∧ c.accepts token = .error e ∧
      col' = col) ∨
      (Passes G token cell.state ∧ scan G k token rest col = (col', .error e)) ∨
      (Takes G token cell.state ∧
        scan G k token rest (shift G.algebra k token cell col) = (col', .error e)) := by
  rcases scan_cons_cases G k token cell with ⟨hpasses, hscan⟩ | ⟨htakes, hscan⟩ |
    ⟨c, e', hnext, hterm, haccepts, hscan⟩ <;> rw [hscan] at h
  · exact .inr (.inl ⟨hpasses, h⟩)
  · refine .inr (.inr ⟨htakes, ?_⟩)
    rcases hrest : scan G k token rest (shift G.algebra k token cell col) with ⟨col'', e' | more⟩
    · rw [hrest] at h
      exact h
    · rw [hrest] at h
      cases h
  · cases h
    exact .inl ⟨c, hnext, hterm, haccepts, rfl⟩

/-- What every cell that is moved keeps of a column, a scan keeps, also one that is cut short. -/
theorem scan_induction {p : Column P W → Prop} {k : Nat} {token : Payload} {cells col : Column P W}
    (hshift : ∀ cell ∈ cells, Takes G token cell.state → ∀ col, p col →
      p (shift G.algebra k token cell col))
    (hcol : p col) : p (scan G k token cells col).1 := by
  induction cells generalizing col with
  | nil => exact hcol
  | cons cell cells ih =>
    have hrest := fun c hc => hshift c (List.mem_cons_of_mem _ hc)
    rcases scan_cons_cases G k token cell with ⟨_, hscan⟩ | ⟨htakes, hscan⟩ |
      ⟨_, _, _, _, _, hscan⟩ <;> rw [hscan]
    · exact ih hrest hcol
    · exact ih hrest (hshift cell List.mem_cons_self htakes col hcol)
    · exact hcol

/-! ## A whole scan -/

/-- The scanned column, over cells whose moved states are new and distinct. -/
theorem scan_eq {k : Nat} {token : Payload} {prev col col' : Column P W} {found : List (State P W)}
    (hprev : prev.Pairwise fun a b => ¬ (a.state.advance k == b.state.advance k) = true)
    (hnew : ∀ cell ∈ prev, col.contains (cell.state.advance k) = false)
    (h : scan G k token prev col = (col', .ok found)) :
    ∃ taken : List (Cell P W), taken.Sublist prev ∧
      (∀ cell ∈ prev, cell ∈ taken ↔ Takes G token cell.state) ∧
      col' = col ++ taken.map (shifted G.algebra k token) ∧
      found = taken.map fun cell => cell.state.advance k := by
  induction prev generalizing col found with
  | nil =>
    cases h
    exact ⟨[], .slnil, fun cell hcell => (by cases hcell), by simp, rfl⟩
  | cons cell prev ih =>
    obtain ⟨hcell, hprev⟩ := List.pairwise_cons.mp hprev
    have hfresh : ∀ d ∈ prev, col.contains (d.state.advance k) = false :=
      fun d hd => hnew d (List.mem_cons_of_mem _ hd)
    have hself : cell ∉ prev := fun hmem => hcell cell hmem BEq.rfl
    rcases scan_cons_eq_ok.mp h with ⟨hpasses, hscan⟩ | ⟨htakes, more, rfl, hscan⟩
    · obtain ⟨taken, hsub, hmem, hcol, hfound⟩ := ih hprev hfresh hscan
      refine ⟨taken, hsub.cons cell,
        List.forall_mem_cons.mpr ⟨⟨fun hin => ?_, fun htakes => ?_⟩, hmem⟩, hcol, hfound⟩
      · exact absurd (hsub.subset hin) hself
      · exact absurd htakes hpasses.not_takes
    · rw [shift_of_not_contains G.algebra token (hnew cell List.mem_cons_self)] at hscan
      have hnew' : ∀ d ∈ prev,
          (col ++ [shifted G.algebra k token cell]).contains (d.state.advance k) = false := by
        intro d hd
        rw [Column.contains_append, hfresh d hd, Bool.false_or, Bool.eq_false_iff]
        intro hcontains
        obtain ⟨e, he, heq⟩ := Column.contains_iff.mp hcontains
        rw [List.mem_singleton.mp he] at heq
        exact hcell d hd heq
      obtain ⟨taken, hsub, hmem, hcol, hfound⟩ := ih hprev hnew' hscan
      refine ⟨cell :: taken, hsub.cons_cons cell, List.forall_mem_cons.mpr
        ⟨⟨fun _ => htakes, fun _ => List.mem_cons_self⟩, fun d hd => ?_⟩, ?_, ?_⟩
      · rw [List.mem_cons, hmem d hd]
        exact ⟨fun hor => hor.resolve_left fun heq => hself (heq ▸ hd), Or.inr⟩
      · rw [hcol, List.map_cons, List.append_assoc, List.singleton_append]
      · rw [hfound, List.map_cons]

/-- A scan that meets a faulty pattern has scanned the cells before it. -/
theorem scan_eq_error {k : Nat} {token : Payload} {prev col col' : Column P W} {e : Pattern.Error}
    (h : scan G k token prev col = (col', .error e)) :
    ∃ before cell after c scanned, prev = before ++ cell :: after ∧
      cell.state.next? = some c ∧ G.isTerminal c = true ∧ c.accepts token = .error e ∧
      scan G k token before col = (col', .ok scanned) := by
  induction prev generalizing col with
  | nil => cases h
  | cons cell prev ih =>
    -- what the scan of the first cell does is the same with fewer cells behind it
    rcases scan_cons_eq_error h with ⟨c, hnext, hterm, haccepts, rfl⟩ | ⟨hpasses, hrest⟩ |
      ⟨htakes, hrest⟩
    · exact ⟨[], cell, prev, c, [], rfl, hnext, hterm, haccepts, rfl⟩
    · obtain ⟨before, cell', after, c, scanned, rfl, hnext, hterm, haccepts, hscan⟩ := ih hrest
      exact ⟨cell :: before, cell', after, c, scanned, rfl, hnext, hterm, haccepts,
        scan_cons_eq_ok.mpr (.inl ⟨hpasses, hscan⟩)⟩
    · obtain ⟨before, cell', after, c, scanned, rfl, hnext, hterm, haccepts, hscan⟩ := ih hrest
      exact ⟨cell :: before, cell', after, c, cell.state.advance k :: scanned, rfl, hnext, hterm,
        haccepts, scan_cons_eq_ok.mpr (.inr ⟨htakes, scanned, rfl, hscan⟩)⟩

variable [Probability P] {solver : Solver P} {goal : Category}

/-- What a scan from a shaped column into an empty one leaves. -/
structure Scanned (G : Grammar P W) (goal : Category) (k : Nat) (token : Payload)
    (prev col : Column P W) : Prop where
  shaped : Shaped G goal (k + 1) col
  mem : ∀ c, c ∈ col ↔ ∃ cell ∈ prev, Takes G token cell.state ∧
    c = shifted G.algebra (k + 1) token cell

/-- **What scanning leaves.** -/
theorem scanned_of_scan {k : Nat} {token : Payload} {prev col : Column P W}
    {found : List (State P W)} (hprev : Shaped G goal k prev)
    (h : scan G (k + 1) token prev [] = (col, .ok found)) :
    Scanned G goal k token prev col ∧ found = col.states := by
  have hpair : prev.Pairwise fun a b =>
      ¬ (a.state.advance (k + 1) == b.state.advance (k + 1)) = true := by
    refine hprev.distinct.imp_of_mem fun {a b} ha hb hab => ?_
    rw [State.advance_beq]
    · exact hab
    · rw [(hprev.fits a ha).position, (hprev.fits b hb).position]
  obtain ⟨taken, hsub, hmem, rfl, rfl⟩ := scan_eq hpair (fun _ _ => rfl) h
  rw [List.nil_append]
  have hmem' : ∀ c, c ∈ taken.map (shifted G.algebra (k + 1) token) ↔ ∃ cell ∈ prev,
      Takes G token cell.state ∧ c = shifted G.algebra (k + 1) token cell := by
    intro c
    rw [List.mem_map]
    constructor
    · rintro ⟨cell, hcell, rfl⟩
      exact ⟨cell, hsub.subset hcell, (hmem cell (hsub.subset hcell)).mp hcell, rfl⟩
    · rintro ⟨cell, hcell, htakes, rfl⟩
      exact ⟨cell, (hmem cell hcell).mpr htakes, rfl⟩
  refine ⟨⟨⟨List.pairwise_map.mpr (hpair.sublist hsub), fun c hc => ?_⟩, hmem'⟩, ?_⟩
  · obtain ⟨cell, hcell, ⟨x, hx, _⟩, rfl⟩ := (hmem' c).mp hc
    exact (hprev.fits cell hcell).advance hx (Nat.lt_succ_self k)
  · rw [Column.states, List.map_map]
    rfl

/-! ## One scan after another -/

/-- What scans from a shaped column leave, one after another: every cell was moved over a token that
was read, with the derivation that it had. -/
structure Swept (G : Grammar P W) (goal : Category) (k : Nat) (read : Payload → Prop)
    (prev col : Column P W) : Prop where
  shaped : Shaped G goal (k + 1) col
  moved : ∀ c ∈ col, ∃ p ∈ prev, ∃ token, read token ∧ Takes G token p.state ∧
    c.state = p.state.advance (k + 1) ∧
    c.best = p.best.map fun b => ⟨.scanned, b.score, some p.state, none, some token⟩

theorem Scanned.swept {k : Nat} {token : Payload} {prev col : Column P W}
    (h : Scanned G goal k token prev col) : Swept G goal k (· = token) prev col := by
  refine ⟨h.shaped, fun c hc => ?_⟩
  obtain ⟨p, hp, htakes, rfl⟩ := (h.mem c).mp hc
  exact ⟨p, hp, token, rfl, htakes, rfl, rfl⟩

theorem Swept.nil {k : Nat} {read : Payload → Prop} {prev : Column P W} :
    Swept G goal k read prev [] :=
  ⟨.nil (k + 1), fun c hc => (by cases hc)⟩

/-- What a column holds for the state that a cell is moved to: nothing yet, or that cell, moved over
an earlier token. -/
theorem Swept.cell_best (hG : G.Compiled solver) {k : Nat} {read : Payload → Prop}
    {prev col : Column P W} (h : Swept G goal k read prev col) (hprev : Shaped G goal k prev)
    {cell : Cell P W} (hcell : cell ∈ prev) :
    (col.cell G.algebra (cell.state.advance (k + 1))).state = cell.state.advance (k + 1) ∧
      ((col.cell G.algebra (cell.state.advance (k + 1))).best = none ∨
        ∃ token, read token ∧ Takes G token cell.state ∧
          (col.cell G.algebra (cell.state.advance (k + 1))).best
            = cell.best.map fun b => ⟨.scanned, b.score, some cell.state, none, some token⟩) := by
  unfold Column.cell
  cases hfind : col.find? (cell.state.advance (k + 1)) with
  | none => exact ⟨rfl, Or.inl rfl⟩
  | some d =>
    obtain ⟨hd, hds⟩ := Column.mem_of_find? hfind
    have hfits := hprev.fits cell hcell
    have heq : d.state = cell.state.advance (k + 1) :=
      (State.beq_iff_eq (t := cell.state.advance (k + 1)) (discrete_chartRule hG)
        (h.shaped.fits d hd).rule hfits.rule).mp hds
    obtain ⟨p, hp, token, hread, htakes, hstate, hbest⟩ := h.moved d hd
    -- only one cell of the column before moves to this state
    have hpos : p.state.position = cell.state.position := by
      rw [(hprev.fits p hp).position, hfits.position]
    have hsame : p.state = cell.state := State.advance_inj hpos (hstate.symm.trans heq)
    have hpcell : p = cell := by
      have hfound := Column.find?_of_mem hprev.distinct hp
      rw [hsame, Column.find?_of_mem hprev.distinct hcell] at hfound
      exact (Option.some.inj hfound).symm
    subst hpcell
    exact ⟨heq, Or.inr ⟨token, hread, htakes, hbest⟩⟩

/-- One cell more. Where the state had been moved to before, its derivation stays, or an equal one
over the new token takes its place. -/
theorem Swept.shift (hG : G.Compiled solver) {k : Nat} {read : Payload → Prop} {token : Payload}
    {prev col : Column P W} (h : Swept G goal k read prev col) (hprev : Shaped G goal k prev)
    (hread : read token) {cell : Cell P W} (hcell : cell ∈ prev)
    (htakes : Takes G token cell.state) :
    Swept G goal k read prev (Parser.shift G.algebra (k + 1) token cell col) := by
  obtain ⟨x, hx, _⟩ := id htakes
  have hfits := (hprev.fits cell hcell).advance hx (Nat.lt_succ_self k)
  obtain ⟨hstate, hold⟩ := h.cell_best hG hprev hcell
  unfold Parser.shift
  cases hbest : cell.best with
  | none =>
    dsimp only
    refine ⟨h.shaped.alter hfits fun c => rfl, fun c hc => ?_⟩
    rcases Column.mem_alter G.algebra h.shaped.distinct hc with ⟨hc, _⟩ | rfl
    · exact h.moved c hc
    · refine ⟨cell, hcell, token, hread, htakes, hstate, ?_⟩
      -- a cell without a derivation passes none on
      rcases hold with hnone | ⟨_, _, _, hmap⟩
      · rw [hbest]
        exact hnone
      · rw [hbest] at hmap ⊢
        exact hmap
  | some b =>
    dsimp only
    refine ⟨h.shaped.alter hfits fun c => Cell.offer_state .., fun c hc => ?_⟩
    rcases Column.mem_alter G.algebra h.shaped.distinct hc with ⟨hc, _⟩ | rfl
    · exact h.moved c hc
    · rw [Cell.offer_state]
      rcases Cell.best_offer_cases .. with hnew | ⟨old, hc, hkept⟩
      · exact ⟨cell, hcell, token, hread, htakes, hstate, by rw [hnew, hbest]; rfl⟩
      · rcases hold with hnone | ⟨token', hread', htakes', hmap⟩
        · cases hnone.symm.trans hc
        · exact ⟨cell, hcell, token', hread', htakes', hstate, hkept.trans (hc.symm.trans hmap)⟩

/-- **A scan into a swept column leaves a swept column**, also where a faulty pattern cuts it
short. -/
theorem Swept.scan (hG : G.Compiled solver) {k : Nat} {read : Payload → Prop} {token : Payload}
    {prev cells col : Column P W} (h : Swept G goal k read prev col)
    (hprev : Shaped G goal k prev) (hread : read token) (hcells : ∀ c ∈ cells, c ∈ prev) :
    Swept G goal k read prev (Parser.scan G (k + 1) token cells col).1 :=
  scan_induction (fun cell hcell htakes _ hcol =>
    hcol.shift hG hprev hread (hcells cell hcell) htakes) h

end StochasticGrammar.Parser
