import Backend6502.Proofs.SwitchRuns

/-!
# Switch statements

The code of a switch whose selector is a register or an unsigned byte: the selector is put where it
can be compared, the tests send control to the right body, and bodies run into each other
(`switch_dispatches`). A label of the source with the text of one of the switch's labels is taken
for it (`not_dispatches_with_foreign`).
-/

namespace Backend6502.Source

open Lowering (lowByte)

variable {α : Type}

/-- Does the arm have tests, and does one of them take this byte? -/
def Arm.takes (arm : Arm α) (b : UInt8) : Bool :=
  !arm.isDefault && arm.values.any fun value => lowByte value == b

/-- Does the arm take what no test has taken? -/
def Arm.isElse (arm : Arm α) : Bool :=
  arm.isDefault || arm.values.isEmpty

/-- The arm that a switch goes to for a byte. -/
def armFor (arms : List (Arm α)) (b : UInt8) : Option Nat :=
  (arms.findIdx? (·.takes b)).or (arms.findIdx? (·.isElse))

end Backend6502.Source

namespace Backend6502.Lowering

open Code (Line Instruction Surroundings Point Along RunsOff labelNames effects)
open Cpu (State Mnemonic)
open Source (Expr Loc Stmt Arm armFor)
open Symbols (Table)

variable {w : Surroundings} {scope : Scope} {c d : Context} {selector : Expr} {u : Unit}
  {arms : List (Arm Stmt)} {lines rest : List Line}

def selectorByte (w : Surroundings) (table : Table) (selector : Expr) (s : State) : UInt8 :=
  lowByte (selector.asNumber table (bytesOf w table s))

def selectorRegister (selector : Expr) (s : State) : UInt8 :=
  match selector with
  | .var name _ => if name = "X" then s.x else if name = "Y" then s.y else s.a
  | _ => s.a

def armLabel (n : Nat) : Option Nat → Label
  | some k => .switchBody n k
  | none => .switchEnd n

/--
Control is on its way through the tests: no variable has changed, nor the selector in its register.
-/
structure OnTheWay (w : Surroundings) (table : Table) (selector : Expr) (n : Nat) (s : State)
    (p : Point) : Prop where
  alike : s.Alike p.cpu
  held : p.cpu = s ∨ selectorRegister selector p.cpu = selectorByte w table selector s
  short : Short n p

section Selectors

/-- The selector is in the register that is compared. -/
structure Selected (w : Surroundings) (table : Table) (selector : Expr) (m : Mnemonic)
    (g : State → State) : Prop where
  compares : m = .cmp ∨ m = .cpx ∨ m = .cpy
  register : ∀ t : State, t.compared m = some (selectorRegister selector t)
  alike : ∀ s : State, s.Alike (g s)
  held : ∀ s, selectorRegister selector (g s) = selectorByte w table selector s

section

variable (known : selector.isUnsignedByte scope.symbols = true)
  (low : c.high = false)
  (none : c.deferred = [])

include known low none

theorem emits_loadSelector : Emits w scope c (loadSelector (lower selector)) fun place d g =>
      (∃ code flags scratchInUse, d = { c with code, flags, scratchInUse }) ∧
        ∃ m, compareOf? place = some m ∧ Selected w scope.symbols selector m g := by
  obtain ⟨name, rfl⟩ := exists_name_of_isUnsignedByte known
  refine .bind (emits_readVariable (isByteName_of_isUnsignedByte known) low) ?_
  rintro place d g ⟨same, rfl, names⟩
  cases same
  have nothing : c.deferred.isEmpty = true := List.isEmpty_iff.mpr none
  refine .get ?_
  rw [nothing]
  have value (s : State) : place.byte w scope.symbols s =
      selectorByte w scope.symbols (.var name .absent) s := names.byte_eq w s
  cases names with
  | x =>
    refine .pure ⟨⟨_, _, _, rfl⟩, .cpx, rfl, .inr (.inl rfl), fun t => rfl, .refl, value⟩
  | y =>
    refine .pure ⟨⟨_, _, _, rfl⟩, .cpy, rfl, .inr (.inr rfl), fun t => rfl, .refl, value⟩
  | constant plain found fixed =>
    rw [Expr.isUnsignedByte, plain, found, Option.any_some, Bool.false_or] at known
    obtain ⟨byte, -⟩ := Bool.and_eq_true_iff.mp known
    cases (isConst_of_isByteCell byte).symm.trans fixed
  | @cell name v plain found isByte =>
    obtain ⟨notX, notY⟩ := Names.ne_of_plain plain
    have inA (t : State) : selectorRegister (.var name .absent) t = t.a := by
      simp only [selectorRegister, if_neg notX, if_neg notY]
    have emits : Emits w scope c (emit .lda (.cell name true 0 v.signed)) _ := .emit rfl rfl low
    have loads : Emits w scope c (loadA (.cell name true 0 v.signed)) _ := emits
    refine .bind loads ?_
    rintro _ d g ⟨⟨code, same⟩, run⟩
    cases same
    have loads (s : State) : g s = s.setA (selectorByte w scope.symbols (.var name .absent) s) := by
      rw [run s, ← value s]
      rfl
    refine .pure ⟨⟨code, _, _, rfl⟩, .cmp, rfl, .inl rfl, fun t => congrArg some (inA t).symm,
      fun s => ?_, fun s => ?_⟩
    · change s.Alike (g s)
      rw [loads]
      exact ⟨rfl, rfl, rfl, rfl, rfl⟩
    · change selectorRegister _ (g s) = _
      rw [loads, inA]
      rfl

theorem length_loadSelector {place : Place} (w : Surroundings)
    (ok : loadSelector (lower selector) scope c = .ok place d) :
    d.code.length ≤ c.code.length + 1 := by
  obtain ⟨name, rfl⟩ := exists_name_of_isUnsignedByte known
  obtain ⟨read, between, reads, ok⟩ := bind_inv ok
  obtain ⟨-, -, -, same, -, names⟩ :=
    emits_readVariable (w := w) (isByteName_of_isUnsignedByte known) low read between reads
  cases same
  obtain ⟨_, _, ⟨⟩, ok⟩ := bind_inv ok
  have nothing : c.deferred.isEmpty = true := List.isEmpty_iff.mpr none
  rw [nothing] at ok
  cases names with
  | x | y =>
    cases ok
    omega
  | constant | cell =>
    obtain ⟨_, after, loads, ok⟩ := bind_inv ok
    cases ok
    rw [loadA] at loads
    obtain ⟨_, _, _, -, -, rfl⟩ := emit_eq_ok loads
    simp

theorem switch_eq_ok {arms : List ArmCode} (ok : switch (lower selector) arms scope c = .ok u d)
    (w : Surroundings) :
    ∃ (plan : SwitchPlan) (load : List Instruction) (e : Context), plan.number = c.ifCount + 1 ∧
      plan.code arms scope e = .ok u d ∧ e.code = c.code ++ load.map .instruction ∧
      (∀ i ∈ load, i.isStraight = true) ∧ load.length ≤ 1 ∧
      Selected w scope.symbols selector plan.compare (effects w load) ∧
      indicesFrom (·.isDefault) 0 arms = plan.default?.toList := by
  obtain ⟨wide, _, ⟨⟩, ok⟩ := bind_inv ok
  split at ok
  · cases ok
  obtain ⟨place, loaded, loads, ok⟩ := bind_inv ok
  obtain ⟨load, added, straight, ⟨code, flags, scratchInUse, same⟩, m, compares, selected⟩ :=
    emits_loadSelector (w := w) known low none place loaded loads
  have short := length_loadSelector known low none w loads
  rw [added, List.length_append, List.length_map] at short
  cases same
  obtain ⟨_, _, ⟨⟩, ok⟩ := bind_inv ok
  obtain ⟨_, _, flushed, ok⟩ := bind_inv ok
  cases flush_same (by exact low) (by exact none) flushed
  obtain ⟨_, _, ⟨⟩, ok⟩ := bind_inv ok
  obtain ⟨number, _, counts, ok⟩ := bind_inv ok
  obtain ⟨rfl, rfl⟩ := nextIf_eq_ok counts
  obtain ⟨default?, _, finds, ok⟩ := bind_inv ok
  obtain ⟨rfl, defaults⟩ := findDefault_eq_ok finds
  rw [compares] at ok
  exact ⟨⟨_, m, default?⟩, load, _, rfl, ok, added, straight, by omega, selected, defaults⟩

end

end Selectors

section Targets

variable {plan : SwitchPlan}

theorem chosen_eq (b : UInt8) (k : Nat) (arms : List ArmCode) :
    plan.chosen b k arms =
      match arms.findIdx? (·.takes b) with
      | some i => plan.body (k + i)
      | none => plan.otherwise := by
  induction arms generalizing k with
  | nil => rfl
  | cons arm rest ih =>
    rw [SwitchPlan.chosen, List.findIdx?_cons, ih]
    cases arm.takes b with
    | true => rfl
    | false =>
      cases rest.findIdx? (·.takes b) with
      | none => rfl
      | some i =>
        change plan.body (k + 1 + i) = plan.body (k + (i + 1))
        rw [Nat.add_assoc, Nat.add_comm 1 i]

theorem head?_indicesFrom {α : Type} (p : α → Bool) (k : Nat) (items : List α) :
    (indicesFrom p k items).head? = (items.findIdx? p).map (k + ·) := by
  induction items generalizing k with
  | nil => rfl
  | cons item rest ih =>
    rw [indicesFrom, List.findIdx?_cons]
    cases p item with
    | true => rfl
    | false =>
      rw [if_neg Bool.false_ne_true, if_neg Bool.false_ne_true, ih, Option.map_map]
      congr 1
      funext i
      simp only [Function.comp_apply]
      omega

theorem takes_armCode (arm : Arm Stmt) (b : UInt8) : (armCode arm).takes b = arm.takes b := by
  obtain ⟨values, isDefault, body⟩ := arm
  rw [armCode, ArmCode.takes, Arm.takes]
  cases isDefault <;> rfl

theorem isDefault_armCode (arm : Arm Stmt) : (armCode arm).isDefault = arm.isElse := by
  obtain ⟨values, isDefault, body⟩ := arm
  rw [armCode, ArmCode.isDefault, Arm.isElse]
  cases isDefault <;> rfl

/-- The tests send control to the arm for the selector. -/
theorem chosen_armCodes
    (defaults : indicesFrom (·.isDefault) 0 (armCodes arms) = plan.default?.toList) (b : UInt8) :
    plan.chosen b 0 (armCodes arms) = (armLabel plan.number (armFor arms b)).text := by
  have isDefault : plan.default? = arms.findIdx? (·.isElse) := by
    have first := head?_indicesFrom (·.isDefault) 0 (armCodes arms)
    rw [defaults, armCodes_eq_map, List.findIdx?_map] at first
    simp only [Function.comp_def, isDefault_armCode, Nat.zero_add] at first
    cases found : plan.default? <;> simpa [found] using first
  rw [chosen_eq, armCodes_eq_map, List.findIdx?_map]
  simp only [Function.comp_def, takes_armCode, Nat.zero_add, armFor, SwitchPlan.otherwise,
    isDefault]
  cases arms.findIdx? (·.takes b) with
  | some i => rfl
  | none =>
    cases arms.findIdx? (·.isElse) with
    | some i => rfl
    | none => rfl

theorem ahead_armCodes (arms : List (Arm Stmt)) (k : Nat) :
    plan.ahead (k + 1) ((armCodes arms).drop (k + 1)) =
      (armLabel plan.number (if k + 1 < arms.length then some (k + 1) else none)).text := by
  have empty : ((armCodes arms).drop (k + 1)).isEmpty = true ↔ ¬k + 1 < arms.length := by
    rw [List.isEmpty_iff, List.drop_eq_nil_iff, armCodes_eq_map, List.length_map, Nat.not_lt]
  unfold SwitchPlan.ahead
  by_cases more : k + 1 < arms.length
  · rw [if_pos more, if_neg (mt empty.mp (not_not_intro more))]
    rfl
  · rw [if_neg more, if_pos (empty.mpr more)]
    rfl

end Targets

def Label.OfSwitch (n : Nat) (l : Label) : Prop :=
  l.IsLanding n ∨ ∃ k, l = .switchNext n k

/-- The code of a switch among some lines that go on behind it. -/
structure Dispatches (w : Surroundings) (scope : Scope) (n : Nat) (selector : Expr)
    (arms : List (Arm Stmt)) (c : Context) (code lower lines : List Line) : Prop where
  lands : ∀ s, ∃ rest t,
    Along w lines (OnTheWay w scope.symbols selector n s) ⟨code ++ lower, s⟩
      ⟨.label (armLabel n (armFor arms (selectorByte w scope.symbols selector s))).text :: rest,
        t⟩ ∧
    s.Alike t ∧ selectorRegister selector t = selectorByte w scope.symbols selector s
  /--
  The body of an arm stands behind its label; if it runs off its end, control goes to the next.
  -/
  follows : ∀ k arm, arms[k]? = some arm → ∃ upper body below before after,
    code = upper ++ .label (Label.switchBody n k).text :: (body ++ below) ∧
      before.code = c.code ++ (upper ++ [.label (Label.switchBody n k).text]) ∧
      stmts arm.body scope before = .ok () after ∧ after.code = before.code ++ body ∧
      ∀ t, RunsOff w body t → SwitchPlan.Skips w lines
        (armLabel n (if k + 1 < arms.length then some (k + 1) else none)).text t (below ++ lower)

section Statements

variable {loc : Loc} {code upper lower : List Line}

theorem enter_labels {s : Stmt} (ok : enter s.loc scope c = .ok u d) :
    ∃ flags, d = { c with
      code := c.code ++ (sourceTexts s.ownLabels).map .label, pos := s.loc.pos, flags } := by
  obtain ⟨_, _, ⟨⟩, ok⟩ := bind_inv ok
  rw [Stmt.ownLabels]
  cases unlabelled : s.loc.label.isEmpty with
  | true =>
    rw [unlabelled] at ok
    cases ok
    exact ⟨c.flags, by simp [sourceTexts]⟩
  | false =>
    rw [unlabelled] at ok
    cases ok
    exact ⟨.unknown, rfl⟩

/-- The labels of a switch are placed once, if the source has none of them. -/
theorem times_of_stmt (ok : stmt (.switch loc selector arms) scope c = .ok () d)
    (added : d.code = c.code ++ code) {l : Label}
    (own : l.text ∉ sourceTexts (Stmt.switch loc selector arms).labels)
    (above : l.text ∉ labelNames upper) (below : l.text ∉ labelNames lower) :
    (labelNames (upper ++ (code ++ lower))).count l.text ≤ 1 := by
  have places : Places _ (fun _ => True) _ :=
    places_stmt (.switch loc selector arms) fun _ _ => trivial
  have labelled := ((places scope c fun _ _ => ⟨trivial, fun _ _ => trivial⟩).of_ok ok).labelled
  have once := labelled.once l.text
  have room : room c d l.text ≤ 1 := by
    unfold room
    split <;> omega
  rw [Context.times, Context.times, added, Code.labelNames_append, List.count_append,
    List.count_eq_zero.mpr own] at once
  rw [Code.labelNames_append, Code.labelNames_append, List.count_append, List.count_append,
    List.count_eq_zero.mpr above, List.count_eq_zero.mpr below]
  omega

/--
The parts of the code of a switch: labels of the source, the load of the selector, and the arms.
-/
structure Arranged (w : Surroundings) (scope : Scope) (selector : Expr) (arms : List (Arm Stmt))
    (c : Context) (names : List String) (plan : SwitchPlan) (load : List Instruction)
    (entry laid : List Line) : Prop where
  number : plan.number = c.ifCount + 1
  defaults : indicesFrom (·.isDefault) 0 (armCodes arms) = plan.default?.toList
  selected : Selected w scope.symbols selector plan.compare (effects w load)
  straight : ∀ i ∈ load, i.isStraight = true
  short : load.length ≤ 1
  enters : ∃ before entered, plan.enter (armCodes arms) scope before = .ok () entered ∧
    before.code = c.code ++ (names.map .label ++ load.map .instruction) ∧
    entered.code = before.code ++ entry ∧
    plan.Laid scope entered.code 0 false (armCodes arms) laid

def arrangedLines (names : List String) (plan : SwitchPlan) (load : List Instruction)
    (entry laid : List Line) : List Line :=
  names.map .label ++ (load.map .instruction ++ (entry ++ (laid ++ [.label plan.stop])))

theorem exists_arranged (known : selector.isUnsignedByte scope.symbols = true)
    (low : c.high = false) (none : c.deferred = [])
    (ok : stmt (.switch loc selector arms) scope c = .ok () d) (added : d.code = c.code ++ code)
    (w : Surroundings) :
    let names := sourceTexts (Stmt.switch loc selector arms).ownLabels
    ∃ plan load entry laid, Arranged w scope selector arms c names plan load entry laid ∧
      code = arrangedLines names plan load entry laid := by
  intro names
  rw [stmt] at ok
  obtain ⟨_, begun, begins, ok⟩ := bind_inv ok
  obtain ⟨flags, same⟩ := enter_labels (s := .switch loc selector arms) begins
  cases same
  obtain ⟨plan, load, e, number, ok, loads, straight, short, selected, defaults⟩ :=
    switch_eq_ok known (by exact low) (by exact none) ok w
  obtain ⟨before, entered, after, enters, lays, same, ends⟩ := SwitchPlan.code_eq_ok ok
  obtain ⟨entry, entering⟩ := SwitchPlan.enter_grows enters
  obtain ⟨lines, further, laid⟩ := SwitchPlan.laid_of_arms (appends_armCodes arms) lays
  have begins : before.code = c.code ++ (names.map .label ++ load.map .instruction) := by
    rw [same, loads, List.append_assoc]
  refine ⟨plan, load, entry, lines, ⟨number, defaults, selected, straight, short, before, entered,
    enters, begins, entering, laid⟩, ?_⟩
  rw [ends, further, entering, begins] at added
  simpa [arrangedLines] using added.symm

theorem along_labels {P : Point → Prop} (names : List String) (s : State)
    (holds : ∀ name ∈ names, ∀ rest, P ⟨.label name :: rest, s⟩) :
    Along w lines P ⟨names.map .label ++ rest, s⟩ ⟨rest, s⟩ := by
  induction names with
  | nil => exact .refl _
  | cons name others ih =>
    refine .head (holds name List.mem_cons_self _) (Point.step?_of_next rfl) ?_
    exact ih fun name inside => holds name (List.mem_cons_of_mem _ inside)

/-- One instruction at most is run through. -/
theorem along_load {P : Point → Prop} {load : List Instruction} {s : State}
    (straight : ∀ i ∈ load, i.isStraight = true) (short : load.length ≤ 1)
    (holds : ∀ i rest, P ⟨.instruction i :: rest, s⟩) :
    Along w lines P ⟨load.map .instruction ++ rest, s⟩ ⟨rest, effects w load s⟩ := by
  cases load with
  | nil => exact .refl _
  | cons i others =>
    cases others with
    | nil =>
      have flows := i.flow_of_isStraight (straight i List.mem_cons_self) w s
      exact .single (holds i rest) (Point.step?_of_next flows)
    | cons => simp at short

namespace Arranged

variable {names : List String} {plan : SwitchPlan} {load : List Instruction}
  {entry laid : List Line}
  {lines : List Line}

section

variable (arranged : Arranged w scope selector arms c names plan load entry laid)

include arranged

/-- The label that nothing is left for is placed. -/
theorem otherwise_mem : plan.otherwise ∈ labelNames (laid ++ [.label plan.stop]) := by
  obtain ⟨before, entered, -, -, -, isLaid⟩ := arranged.enters
  rw [Code.labelNames_append]
  cases isDefault : plan.default? with
  | none =>
    rw [SwitchPlan.otherwise, isDefault]
    exact List.mem_append_right _ List.mem_cons_self
  | some k =>
    have inside : k ∈ indicesFrom (·.isDefault) 0 (armCodes arms) := by
      rw [arranged.defaults, isDefault]
      exact List.mem_singleton_self k
    obtain ⟨j, arm, found, rfl, -⟩ := exists_of_mem_indicesFrom inside
    obtain ⟨above, body, below, -, -, rfl, -⟩ := isLaid.split found
    rw [SwitchPlan.otherwise, isDefault]
    simp

section

variable (once : plan.Once lines)
  (split : lines = upper ++ (arrangedLines names plan load entry laid ++ lower))

include once split

theorem lands (foreign : ∀ l : Label, l.IsLanding plan.number → l.text ∉ names) (s : State) :
    ∃ rest t, Along w lines (OnTheWay w scope.symbols selector plan.number s)
        ⟨arrangedLines names plan load entry laid ++ lower, s⟩
        ⟨.label (armLabel plan.number
          (armFor arms (selectorByte w scope.symbols selector s))).text :: rest, t⟩ ∧
      s.Alike t ∧ selectorRegister selector t = selectorByte w scope.symbols selector s := by
  have selected := arranged.selected
  have held (t : State) : plan.held t = selectorRegister selector t := by
    rw [SwitchPlan.held, selected.register]
    rfl
  have fallback : plan.otherwise ∈ labelNames lines := by
    have inside := arranged.otherwise_mem
    rw [split, arrangedLines]
    simp only [Code.labelNames_append, List.mem_append] at inside ⊢
    tauto
  obtain ⟨before, entered, enters, begins, entering, isLaid⟩ := arranged.enters
  have ahead : arrangedLines names plan load entry laid ++ lower = names.map .label ++
      (load.map .instruction ++ (entry ++ (laid ++ .label plan.stop :: lower))) := by
    rw [arrangedLines]
    simp
  rw [ahead] at split ⊢
  have sends := isLaid.sends_enter (w := w) enters entering selected.compares arranged.defaults once
    fallback (upper ++ (names.map .label ++ load.map .instruction)) lower (by rw [split]; simp)
  let s₁ := effects w load s
  obtain ⟨rest, t, tested, there, along⟩ := sends s₁
  have byte : plan.held s₁ = selectorByte w scope.symbols selector s :=
    (held s₁).trans (selected.held s)
  rw [byte, chosen_armCodes arranged.defaults] at there
  obtain ⟨others, rfl⟩ := Code.fromLabel?_head there
  -- Before the selector is loaded the state is the first one, and behind that only flags change.
  have starts (p : Point) (same : p.cpu = s) (short : Short plan.number p) :
      OnTheWay w scope.symbols selector plan.number s p :=
    ⟨same ▸ .refl s, .inl same, short⟩
  refine ⟨others, t, ?_, (selected.alike s).trans tested.toAlike, ?_⟩
  · refine (along_labels names s fun name inside rest => starts _ rfl ?_).trans
      ((along_load arranged.straight arranged.short fun i rest => starts _ rfl
        (short_instruction i rest s)).trans (along.mono fun p testing => ?_))
    · intro l landing same
      have same : name = l.text := by simpa using same
      exact foreign l landing (same ▸ inside)
    · refine ⟨(selected.alike s).trans testing.1.toAlike, .inr ?_, testing.2⟩
      rw [← held, testing.1.held, byte]
  · rw [← held, tested.held, byte]

theorem follows {k : Nat}
    {arm : Arm Stmt} (found : arms[k]? = some arm) : ∃ above body below before after,
      arrangedLines names plan load entry laid =
        above ++ .label (plan.body k) :: (body ++ below) ∧
      before.code = c.code ++ (above ++ [.label (plan.body k)]) ∧
      stmts arm.body scope before = .ok () after ∧ after.code = before.code ++ body ∧
      ∀ t, RunsOff w body t → SwitchPlan.Skips w lines
        (armLabel plan.number (if k + 1 < arms.length then some (k + 1) else none)).text t
        (below ++ lower) := by
  obtain ⟨before, entered, -, begins, entering, isLaid⟩ := arranged.enters
  have code : (armCodes arms)[k]? = some (armCode arm) := by
    rw [armCodes_eq_map, List.getElem?_map, found]
    rfl
  obtain ⟨above, body, below, e, f, rfl, starts, ran, ends, others⟩ := isLaid.split code
  rw [Nat.zero_add] at starts others split ⊢
  refine ⟨names.map .label ++ (load.map .instruction ++ (entry ++ above)), body,
    below ++ [.label plan.stop], e, f, ?_, ?_, body_armCode arm ▸ ran, ends, fun t off => ?_⟩
  · rw [arrangedLines]
    simp
  · rw [starts, entering, begins]
    simp
  · rw [← List.append_assoc] at starts
    rw [← ahead_armCodes, List.append_assoc]
    exact others.runsOn starts ran ends halts_armCode once (upper ++ (names.map .label ++
      (load.map .instruction ++ (entry ++ (above ++ .label (plan.body k) :: body)))))
      (by rw [split, arrangedLines]; simp) off

end

end

end Arranged

end Statements

/--
A switch on a register or an unsigned byte goes to the first arm with a value that equals the
selector as a byte, else to the default arm, else past its end; and its bodies run into each other.
-/
theorem switch_dispatches {w : Surroundings} {scope : Scope} {c d : Context} {loc : Loc}
    {selector : Expr} {arms : List (Arm Stmt)} {code upper lower : List Line}
    (known : selector.isUnsignedByte scope.symbols = true) (low : c.high = false)
    (none : c.deferred = [])
    (foreign : ∀ l : Label, l.OfSwitch (c.ifCount + 1) →
      l.text ∉ sourceTexts (Stmt.switch loc selector arms).labels ∧ l.text ∉ labelNames upper ∧
        l.text ∉ labelNames lower)
    (ok : stmt (.switch loc selector arms) scope c = .ok () d) (added : d.code = c.code ++ code) :
    Dispatches w scope (c.ifCount + 1) selector arms c code lower (upper ++ (code ++ lower)) := by
  obtain ⟨plan, load, entry, laid, arranged, whole⟩ := exists_arranged known low none ok added w
  rw [← arranged.number] at foreign ⊢
  have once : plan.Once (upper ++ (code ++ lower)) := by
    have each (l : Label) (mine : l.OfSwitch plan.number) :=
      have ⟨own, above, below⟩ := foreign l mine
      times_of_stmt ok added own above below
    exact ⟨fun k => each (.switchBody _ k) (.inl (.inr ⟨k, rfl⟩)),
      fun k => each (.switchNext _ k) (.inr ⟨k, rfl⟩), each (.switchEnd _) (.inl (.inl rfl))⟩
  subst whole
  constructor
  · refine arranged.lands once rfl fun l landing own => (foreign l (.inl landing)).1 ?_
    rw [Stmt.labels, Stmt.collect, sourceTexts_append]
    exact List.mem_append_left _ own
  · exact fun k arm found => arranged.follows once rfl found

def switchScope : Scope where
  symbols := { vars := [{ name := "v", size := 1 }] }
  function := { name := "main" }

/-- The byte is at the start of a page. -/
def switchPlaces : Surroundings where
  address _ := 0x200
  verbatim _ s := some s
  call _ _ := none

/--
Values that repeat or do not fit a byte, a default arm in between, and a body without statements.
-/
def mixedArms : List (Arm Stmt) :=
  [⟨[1, 4], false, []⟩, ⟨[2], true, [.leave { label := "out" }]⟩,
    ⟨[258, 1], false, [.asm {} "nop"]⟩]

/-- The default arm also has a value, which is not tested for: the byte 2 goes to the last arm. -/
theorem mixedArms_dispatches :
    let s : State := { memory := ({} : Cpu.Memory).write 0x200 2 }
    let code := Stmt.switch {} (.var "v" .absent) mixedArms
    armFor mixedArms 2 = some 2 ∧ ∃ d rest t, stmt code switchScope {} = .ok () d ∧
      Along switchPlaces (d.code ++ [])
      (OnTheWay switchPlaces switchScope.symbols (.var "v" .absent) 1 s)
        ⟨d.code ++ [], s⟩ ⟨.label (Label.switchBody 1 2).text :: rest, t⟩ := by
  intro s code
  have goes : goesThrough (stmt code) switchScope {} (fun _ => true) = true := by decide +kernel
  obtain ⟨_, d, ran, -⟩ := exists_of_goesThrough goes
  have foreign (l : Label) (mine : l.OfSwitch 1) : l.text ∉ sourceTexts code.labels ∧
      l.text ∉ labelNames [] ∧ l.text ∉ labelNames [] := by
    have starts : ['.', 's'] <+: l.text.toList := by
      rcases mine with (rfl | ⟨k, rfl⟩) | ⟨k, rfl⟩
      all_goals
        rw [Label.toList_text rfl, Label.stem]
        exact .trans (by decide +kernel) (List.prefix_append _ _)
    refine ⟨fun inside => ?_, List.not_mem_nil, List.not_mem_nil⟩
    have same : l.text = ".out" := List.mem_singleton.mp inside
    rw [same] at starts
    exact absurd starts (by decide +kernel)
  have dispatches := @switch_dispatches switchPlaces switchScope {} d {}
    (.var "v" .absent) mixedArms
    d.code [] [] (by decide +kernel) rfl rfl foreign ran (List.nil_append _).symm
  obtain ⟨rest, t, along, -⟩ := dispatches.lands s
  have chosen :
      armFor mixedArms (selectorByte switchPlaces switchScope.symbols (.var "v" .absent) s) =
      some 2 := by decide +kernel
  rw [chosen] at along
  exact ⟨by decide +kernel, d, rest, t, ran, along⟩

/-- The body of the last arm carries the label that the tests of the arm have as well. -/
def shadowedArms : List (Arm Stmt) :=
  [⟨[1], false, []⟩, ⟨[2], false, [.leave { label := "switchnext1_1" }]⟩]

/-- A label of the source that is spelled like one of the switch is taken for it. -/
theorem not_dispatches_with_foreign :
    ¬ ∀ (w : Surroundings) (scope : Scope) (c d : Context) (loc : Loc) (selector : Expr)
        (arms : List (Arm Stmt)) (code upper lower : List Line),
      selector.isUnsignedByte scope.symbols = true → c.high = false → c.deferred = [] →
      (∀ l : Label, l.OfSwitch (c.ifCount + 1) →
        l.text ∉ labelNames upper ∧ l.text ∉ labelNames lower) →
      stmt (.switch loc selector arms) scope c = .ok () d → d.code = c.code ++ code →
        Dispatches w scope (c.ifCount + 1) selector arms c code lower
          (upper ++ (code ++ lower)) := by
  intro always
  let s : State := { x := 2 }
  let atBody (p : Point) : Bool := p.rest.head? == some (.label (Label.switchBody 1 1).text)
  have goes : goesThrough (stmt (.switch {} (.var "X" .absent) shadowedArms)) switchScope {}
      (fun d =>
      (((⟨d.code, s⟩ : Point).after switchPlaces d.code 20).step? switchPlaces d.code).isNone &&
        (List.range 21).all fun n => !atBody ((⟨d.code, s⟩ : Point).after switchPlaces d.code n)) =
      true := by
    decide +kernel
  obtain ⟨_, d, ran, accepted⟩ := exists_of_goesThrough goes
  obtain ⟨ends, all⟩ := Bool.and_eq_true_iff.mp accepted
  have dispatches := always switchPlaces switchScope {} d {}
    (.var "X" .absent) shadowedArms d.code [] []
    (by decide +kernel) rfl rfl (fun _ _ => ⟨List.not_mem_nil, List.not_mem_nil⟩) ran
    (List.nil_append _).symm
  obtain ⟨rest, t, along, -⟩ := dispatches.lands s
  have chosen : armFor shadowedArms
      (selectorByte switchPlaces switchScope.symbols (.var "X" .absent) s) = some 1 := by
    decide +kernel
  rw [chosen, List.nil_append, List.append_nil] at along
  have elsewhere := along.steps.all_of_ends (P := fun p => !atBody p) 20
    (Option.isNone_iff_eq_none.mp ends) all
  simp [atBody, armLabel] at elsewhere

end Backend6502.Lowering
