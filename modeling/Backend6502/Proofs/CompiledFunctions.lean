import Backend6502.Proofs.CallGraph
import Backend6502.Proofs.CallLinks
import Mathlib.Data.List.Nodup

/-!
# Each function is compiled on its own

The stream of a function does not depend on the functions that were generated before it, so a
program is compiled exactly if its functions have different names and each of them is compiled. A
generation that fails leaves no stream behind, though the calls across banks that it met stay
recorded.

In a compiled program every call goes to a function of the program or to a trampoline that the
program asks for. Above the first level the functions without a path of calls from `main` or an
interrupt handler are left out, and the others are compiled as at the first level.
-/

namespace Backend6502

open Code (Stream callLines)
open Lowering (Linked callsOf recorded)
open Symbols (Table Function)

structure Product where
  function : Function
  /-- The stream before it is optimized and repaired. -/
  generated : Stream
  stream : Stream
  /-- The calls across banks, in the order in which they are met. -/
  stubs : List String

/-- The function is compiled in this way whatever was generated before it. -/
structure Product.Made (p : Product) (t : Table) (level : Int64) : Prop where
  name : p.generated.name = p.function.name
  generates : ∀ g : Generator, g.symbols = t → (∀ s ∈ g.streams, s.name ≠ p.function.name) →
    g.generate p.function = ({ g with
          streams := g.streams ++ [p.generated]
          trampolines := recorded p.stubs g.trampolines }, .ok p.generated)
  linked : Linked (· ∈ callsOf p.function) ⟨t, p.function⟩ (callLines p.generated.lines) p.stubs
  finishes : finish level p.generated = .ok p.stream

namespace Product.Made

variable {p : Product} {t : Table} {level : Int64}

theorem stream_name (made : p.Made t level) : p.stream.name = p.function.name :=
  (finish_keeps made.finishes).1.trans made.name

theorem callLines_stream (made : p.Made t level) :
    callLines p.stream.lines = callLines p.generated.lines :=
  (finish_keeps made.finishes).2

end Product.Made

/--
A function that was not generated yet comes out the same whatever was generated before, and adds the
same calls across banks to those that are known.
-/
theorem Generator.generate_fresh (t : Table) (f : Function) : ∃ outcome stubs,
    (∀ s, outcome = .ok s →
      s.name = f.name ∧ Linked (· ∈ callsOf f) ⟨t, f⟩ (callLines s.lines) stubs) ∧
    ∀ g : Generator, g.symbols = t → (∀ s ∈ g.streams, s.name ≠ f.name) →
      g.generate f = ({ g with
            streams := g.streams ++ outcome.toOption.toList
            trampolines := recorded stubs g.trampolines }, outcome) := by
  obtain ⟨lines, stubs, blind, linked⟩ := Lowering.logs_function f ⟨t, f⟩ {}
  cases run : Lowering.function f ⟨t, f⟩ {} with
  | error failure context =>
    refine ⟨.error (.failure failure), stubs, nofun, ?_⟩
    rintro g rfl others
    have free : ¬ g.streams.any (·.name == f.name) = true := by simpa using others
    rw [generate, if_neg free, blind [] g.trampolines, run]
    simp [Lowering.withLog, Except.toOption]
  | ok _ context =>
    refine ⟨.ok { name := f.name, lines }, stubs, ?_, ?_⟩
    · rintro _ ⟨⟩
      exact ⟨rfl, linked _ context run⟩
    · rintro g rfl others
      have free : ¬ g.streams.any (·.name == f.name) = true := by simpa using others
      rw [generate, if_neg free, blind [] g.trampolines, run]
      rfl

theorem Generator.generate_eq_ok {g next : Generator} {f : Function} {generated : Stream}
    (ok : g.generate f = (next, .ok generated)) :
    (∀ s ∈ g.streams, s.name ≠ f.name) ∧ generated.name = f.name ∧ ∃ stubs,
      Linked (· ∈ callsOf f) ⟨g.symbols, f⟩ (callLines generated.lines) stubs ∧
      ∀ h : Generator, h.symbols = g.symbols → (∀ s ∈ h.streams, s.name ≠ f.name) →
        h.generate f = ({ h with
              streams := h.streams ++ [generated]
              trampolines := recorded stubs h.trampolines }, .ok generated) := by
  have unused : ∀ s ∈ g.streams, s.name ≠ f.name := by
    unfold generate at ok
    split at ok
    · cases ok
    · next fresh => simpa using fresh
  obtain ⟨outcome, stubs, made, same⟩ := generate_fresh g.symbols f
  cases (same g rfl unused).symm.trans ok
  obtain ⟨name, linked⟩ := made generated rfl
  exact ⟨unused, name, stubs, linked, same⟩

namespace Compiler

variable {kept : Function → Bool} {level : Int64} {g : Generator} {c : Compiled}

/-- The functions that are kept are compiled one after another into the program. -/
structure Ran (kept : Function → Bool) (level : Int64) (g : Generator)
    (functions : List Function) (products : List Product) (c : Compiled) : Prop where
  functions : products.map (·.function) = functions.filter kept
  made : ∀ p ∈ products, p.Made g.symbols level
  distinct : (products.map (·.function.name)).Nodup
  fresh : ∀ p ∈ products, ∀ s ∈ g.streams, s.name ≠ p.function.name
  streams : c.streams = products.map (·.stream)
  trampolines : c.trampolines = recorded (products.flatMap (·.stubs)) g.trampolines

theorem run_cons_of_kept {f : Function} {rest : List Function} (keeps : kept f = true) :
    (run kept level g (f :: rest)).2 = .ok c ↔
      ∃ next generated stream others, g.generate f = (next, .ok generated) ∧
        finish level generated = .ok stream ∧ (run kept level next rest).2 = .ok others ∧
        { others with streams := stream :: others.streams } = c := by
  rw [run, if_pos keeps]
  rcases generates : g.generate f with ⟨next, result⟩
  cases result with
  | error e =>
    cases e with
    | twice name => simp
    | failure failure => cases failure <;> simp
  | ok generated =>
    cases finishes : finish level generated with
    | error d => simp [finishes]
    | ok stream =>
      cases result : (run kept level next rest).2 with
      | error failure => simp [finishes, result, Except.map]
      | ok others => simp [finishes, result, Except.map]

theorem exists_ran {functions : List Function} (ok : (run kept level g functions).2 = .ok c) :
    ∃ products, Ran kept level g functions products c := by
  induction functions generalizing g c with
  | nil =>
    cases ok
    exact ⟨[], rfl, nofun, .nil, nofun, rfl, rfl⟩
  | cons f rest ih =>
    by_cases keeps : kept f = true
    · obtain ⟨next, generated, stream, others, generates, finishes, further, rfl⟩ :=
        (run_cons_of_kept keeps).mp ok
      obtain ⟨unused, name, stubs, linked, always⟩ := Generator.generate_eq_ok generates
      cases generates.symm.trans (always g rfl unused)
      obtain ⟨products, ran⟩ := ih further
      have apart : ∀ p ∈ products, p.function.name ≠ f.name := by
        intro p inside same
        refine ran.fresh p inside generated ?_ (name.trans same.symm)
        exact List.mem_append_right _ List.mem_cons_self
      refine ⟨⟨f, generated, stream, stubs⟩ :: products, ?_, ?_, ?_, ?_, ?_, ?_⟩
      · rw [List.filter_cons_of_pos keeps, List.map_cons, ran.functions]
      · intro p inside
        rcases List.mem_cons.mp inside with rfl | later
        · exact ⟨name, always, linked, finishes⟩
        · exact ran.made p later
      · refine List.nodup_cons.mpr ⟨?_, ran.distinct⟩
        intro again
        obtain ⟨p, later, same⟩ := List.mem_map.mp again
        exact apart p later same
      · intro p inside s among
        rcases List.mem_cons.mp inside with rfl | later
        · exact unused s among
        · exact ran.fresh p later s (List.mem_append_left _ among)
      · rw [List.map_cons, ← ran.streams]
      · rw [List.flatMap_cons, Lowering.recorded_append]
        exact ran.trampolines
    · rw [run, if_neg keeps] at ok
      obtain ⟨products, ran⟩ := ih ok
      refine ⟨products, ?_, ran.made, ran.distinct, ran.fresh, ran.streams, ran.trampolines⟩
      rw [List.filter_cons_of_neg keeps]
      exact ran.functions

theorem Ran.ok {functions : List Function} {products : List Product}
    (ran : Ran kept level g functions products c) : (run kept level g functions).2 = .ok c := by
  obtain ⟨shape, made, distinct, fresh, streams, trampolines⟩ := ran
  induction functions generalizing g c products with
  | nil =>
    cases List.map_eq_nil_iff.mp shape
    obtain ⟨_, _⟩ := c
    cases streams
    cases trampolines
    rfl
  | cons f rest ih =>
    by_cases keeps : kept f = true
    · rw [List.filter_cons_of_pos keeps] at shape
      obtain ⟨p, others, rfl, rfl, further⟩ := List.map_eq_cons_iff.mp shape
      obtain ⟨apart, distinct⟩ := List.nodup_cons.mp distinct
      have first := made p List.mem_cons_self
      refine (run_cons_of_kept keeps).mpr ⟨_, p.generated, p.stream,
        { c with streams := others.map (·.stream) },
        first.generates g rfl (fresh p List.mem_cons_self), first.finishes, ?_, ?_⟩
      · refine ih further (fun q inside => made q (List.mem_cons_of_mem _ inside)) distinct ?_
          rfl ?_
        · intro q inside s among
          rcases List.mem_append.mp among with old | new
          · exact fresh q (List.mem_cons_of_mem _ inside) s old
          · rw [List.mem_singleton.mp new, first.name]
            intro same
            exact apart (List.mem_map.mpr ⟨q, inside, same.symm⟩)
        · rw [trampolines, List.flatMap_cons, Lowering.recorded_append]
      · obtain ⟨_, _⟩ := c
        cases streams
        rfl
    · rw [run, if_neg keeps]
      rw [List.filter_cons_of_neg keeps] at shape
      exact ih shape made distinct fresh streams trampolines

end Compiler

open Code (Line Instruction mem_callLines)
open Lowering (insertName trampolineName)

namespace Lowering

theorem sorted_insertName {name : String} {names : List String} (sorted : names.Pairwise (· < ·)) :
    (insertName name names).Pairwise (· < ·) := by
  unfold insertName
  split
  · exact sorted
  · next absent =>
    have unlisted : name ∉ names := by simpa using absent
    clear absent
    induction names with
    | nil => exact List.pairwise_singleton _ _
    | cons first rest ih =>
      obtain ⟨least, others⟩ := List.pairwise_cons.mp sorted
      obtain ⟨different, later⟩ := not_or.mp (mt List.mem_cons.mpr unlisted)
      rw [Symbols.insertBy]
      split
      · next before =>
        have below : name < first := of_decide_eq_true before
        refine List.pairwise_cons.mpr ⟨?_, sorted⟩
        intro other inside
        rcases List.mem_cons.mp inside with rfl | further
        · exact below
        · exact String.lt_trans below (least other further)
      · next notBefore =>
        have notBelow : ¬ name < first := fun before => notBefore (decide_eq_true before)
        have above : first < name := by
          refine Decidable.byContradiction fun notAbove => different ?_
          exact String.le_antisymm (String.not_lt.mp notAbove) (String.not_lt.mp notBelow)
        refine List.pairwise_cons.mpr ⟨?_, ih others later⟩
        intro other inside
        rcases Symbols.mem_insertBy.mp inside with rfl | further
        · exact above
        · exact least other further

theorem sorted_recorded {names known : List String} (sorted : known.Pairwise (· < ·)) :
    (recorded names known).Pairwise (· < ·) := by
  induction names generalizing known with
  | nil => exact sorted
  | cons name rest ih => exact ih (sorted_insertName sorted)

end Lowering

def Code.Stream.CallsLabel (s : Stream) (label : String) : Prop :=
  ∃ i ∈ s.instructions, i.op.entry? = some .jsr ∧ i.operand = label

theorem Code.Stream.callsLabel_iff {s : Stream} {label : String} :
    s.CallsLabel label ↔ ∃ i, .instruction i ∈ callLines s.lines ∧ i.operand = label := by
  have listed (i : Instruction) : i ∈ s.instructions ↔ .instruction i ∈ s.lines := by
    constructor
    · intro inside
      obtain ⟨line, among, found⟩ := List.mem_filterMap.mp inside
      cases line <;> cases found
      exact among
    · intro inside
      exact List.mem_filterMap.mpr ⟨_, inside, rfl⟩
  have call (i : Instruction) : (Line.instruction i).isCall = true ↔ i.op.entry? = some .jsr :=
    beq_iff_eq
  simp only [CallsLabel, listed, mem_callLines, call, and_assoc]

namespace Compiler

variable {t : Table} {level : Int64} {products : List Product} {c : Compiled}

/-- The functions where execution can start are compiled, so they have different names. -/
theorem Ran.nodup_roots (higher : 2 ≤ level)
    (ran : Ran (isKept t level) level { symbols := t } t.functions products c) :
    t.roots.Nodup := by
  have kept : ∀ f ∈ t.functions, (f.name == "main" || f.interrupt) = true →
      isKept t level f = true := by
    intro f inside root
    rw [isKept, if_pos higher, List.contains_iff_mem]
    exact Symbols.Table.mem_reachable_of_root inside (by simpa using root)
  have among : t.functions.filter (fun f => f.name == "main" || f.interrupt) =
      (t.functions.filter (isKept t level)).filter fun f => f.name == "main" || f.interrupt := by
    rw [List.filter_filter]
    refine List.filter_congr fun f inside => ?_
    have keeps := kept f inside
    cases root : f.name == "main" || f.interrupt with
    | false => rfl
    | true => rw [keeps root]; rfl
  have distinct := ran.distinct
  rw [show products.map (·.function.name) = (products.map (·.function)).map (·.name) by simp,
    ran.functions] at distinct
  unfold Table.roots
  rw [among]
  exact distinct.sublist (List.filter_sublist.map _)

theorem Ran.mem_of_called (ran : Ran (isKept t level) level { symbols := t } t.functions products c)
    {p : Product} (inside : p ∈ products) {f : Function} (called : f.name ∈ callsOf p.function)
    (found : t.getFunction? f.name = some f) : f ∈ products.map (·.function) := by
  have listed : f ∈ t.functions := (Symbols.Table.of_getFunction? found).1
  rw [ran.functions, List.mem_filter]
  refine ⟨listed, ?_⟩
  by_cases higher : 2 ≤ level
  · have kept (g : Function) : isKept t level g = true ↔ g.name ∈ t.reachable := by
      rw [isKept, if_pos higher, List.contains_iff_mem]
    have compiled {g : Function} :
        g ∈ products.map (·.function) ↔ g ∈ t.functions ∧ g.name ∈ t.reachable := by
      rw [ran.functions, List.mem_filter, kept]
    obtain ⟨caller, reachable⟩ := compiled.mp (List.mem_map_of_mem inside)
    have unique : ∀ g ∈ t.functions, g.name = p.function.name → g = p.function := by
      intro g among same
      obtain ⟨q, made, rfl⟩ := List.mem_map.mp (compiled.mpr ⟨among, same ▸ reachable⟩)
      rw [List.inj_on_of_nodup_map ran.distinct made inside same]
    rw [kept]
    refine Symbols.Table.mem_reachable_of_callee (ran.nodup_roots higher) reachable ?_
    refine Symbols.Table.mem_callees.mpr ⟨p.function, f, ?_, Symbols.mem_callsOf.mp called, found⟩
    exact Symbols.Table.getFunction?_of_unique caller unique
  · rw [isKept, if_neg higher]

end Compiler

/--
In a compiled program every call goes to a function of the program, or to its trampoline if the
program asks for that. What it asks for is in order, without repetition, and each time for a
function outside bank 0 that a function in bank 0 calls through its trampoline.
-/
theorem compile_linked (t : Table) (level : Int64) (c : Compiled)
    (compiled : (compile t level).2 = .ok c) :
    (∀ s ∈ c.streams, ∀ label, s.CallsLabel label → ∃ callee ∈ c.streams, label = callee.name ∨
      label = trampolineName callee.name ∧ callee.name ∈ c.trampolines) ∧
    c.trampolines.Pairwise (· < ·) ∧
    ∀ name ∈ c.trampolines, (∃ f ∈ t.functions, f.name = name ∧ f.bank ≠ 0) ∧
      ∃ caller ∈ t.functions, caller.bank = 0 ∧
        ∃ s ∈ c.streams, s.name = caller.name ∧ s.CallsLabel (trampolineName name) := by
  obtain ⟨products, ran⟩ := Compiler.exists_ran compiled
  have calls {p : Product} (inside : p ∈ products) {label : String} : p.stream.CallsLabel label ↔
        ∃ i, .instruction i ∈ callLines p.generated.lines ∧ i.operand = label := by
    rw [Code.Stream.callsLabel_iff, (ran.made p inside).callLines_stream]
  have listed {name : String} : name ∈ c.trampolines ↔ ∃ p ∈ products, name ∈ p.stubs := by
    rw [ran.trampolines, Lowering.mem_recorded, List.mem_flatMap]
    simp
  refine ⟨?_, ?_, ?_⟩
  · intro s inside label called
    rw [ran.streams] at inside
    obtain ⟨p, made, rfl⟩ := List.mem_map.mp inside
    obtain ⟨i, call, rfl⟩ := (calls made).mp called
    obtain ⟨f, named, found, target⟩ := (ran.made p made).linked.targets i call
    obtain ⟨q, callee, rfl⟩ := List.mem_map.mp (ran.mem_of_called made named found)
    have name := (ran.made q callee).stream_name
    refine ⟨q.stream, ran.streams ▸ List.mem_map_of_mem callee, ?_⟩
    rw [name]
    exact target.imp_right fun through => ⟨through.1, listed.mpr ⟨p, made, through.2⟩⟩
  · rw [ran.trampolines]
    exact Lowering.sorted_recorded .nil
  · intro name asked
    obtain ⟨p, made, stub⟩ := listed.mp asked
    obtain ⟨f, found, far, home, through⟩ := (ran.made p made).linked.stubs name stub
    have caller : p.function ∈ t.functions := by
      have kept : p.function ∈ products.map (·.function) := List.mem_map_of_mem made
      rw [ran.functions] at kept
      exact List.mem_of_mem_filter kept
    obtain ⟨inside, named⟩ := Symbols.Table.of_getFunction? found
    refine ⟨⟨f, inside, named, far⟩, p.function, caller, home, p.stream, ?_, ?_, ?_⟩
    · exact ran.streams ▸ List.mem_map_of_mem made
    · exact (ran.made p made).stream_name
    · exact (calls made).mpr through

/-- A function in bank 0 that calls one in its own bank and, twice, one in another bank. -/
def bankTable : Table :=
  let calls (names : List String) : Option Source.Block :=
    some ⟨{}, names.map fun name => .expr {} (.call name [])⟩
  { functions := [
      { name := "main", body := calls ["far", "near", "far"] },
      { name := "near", body := calls ["away"] },
      { name := "far", bank := 1, body := calls ["near"] },
      { name := "away", bank := 2 }] }

theorem compile_bankTable : ∃ c, (compile bankTable 2).2 = .ok c ∧
    c.trampolines = ["away", "far"] ∧
    ∀ s ∈ c.streams, ∀ label, s.CallsLabel label → ∃ callee ∈ c.streams, label = callee.name ∨
      label = trampolineName callee.name ∧ callee.name ∈ c.trampolines := by
  have evaluated : (compile bankTable 2).2.toOption.any
      (fun c => c.trampolines = ["away", "far"]) = true := by
    decide +kernel
  cases compiled : (compile bankTable 2).2 with
  | error failure =>
    rw [compiled] at evaluated
    cases evaluated
  | ok c =>
    rw [compiled] at evaluated
    exact ⟨c, rfl, of_decide_eq_true evaluated, (compile_linked bankTable 2 c compiled).1⟩

theorem finish_of_one_le {level : Int64} (higher : 1 ≤ level) (s : Stream) :
    finish level s = finish 1 s := by
  unfold finish
  rw [if_pos higher, if_pos (by decide)]

theorem Product.Made.higher {p : Product} {t : Table} {level : Int64} (made : p.Made t 1)
    (higher : 1 ≤ level) : p.Made t level where
  name := made.name
  generates := made.generates
  linked := made.linked
  finishes := by rw [finish_of_one_le higher, made.finishes]

namespace Compiler

theorem Ran.filter {g : Generator} {functions : List Function} {products : List Product}
    {c : Compiled} {level : Int64} (ran : Ran (fun _ => true) 1 g functions products c)
    (higher : 1 ≤ level) (kept : String → Bool) :
    Ran (fun f => kept f.name) level g functions (products.filter fun p => kept p.function.name)
      { streams := c.streams.filter fun s => kept s.name
        trampolines := Lowering.recorded
          ((products.filter fun p => kept p.function.name).flatMap (·.stubs)) g.trampolines } where
  functions := by
    have all : products.map (·.function) = functions :=
      ran.functions.trans (List.filter_eq_self.mpr fun _ _ => rfl)
    rw [← all, List.filter_map]
    rfl
  made p inside := (ran.made p (List.mem_of_mem_filter inside)).higher higher
  distinct := ran.distinct.sublist (List.filter_sublist.map _)
  fresh p inside := ran.fresh p (List.mem_of_mem_filter inside)
  streams := by
    rw [ran.streams, List.filter_map]
    refine congrArg _ (List.filter_congr fun p inside => ?_)
    exact congrArg kept (ran.made p inside).stream_name
  trampolines := rfl

end Compiler

/--
Above the first level a program that is compiled at the first one is compiled, too. It has the
streams that the first level has, but only those of functions with a path of calls to them, and it
needs no other trampolines.
-/
theorem compile_reachable (t : Table) (level : Int64) (higher : 2 ≤ level) (c : Compiled)
    (compiled : (compile t 1).2 = .ok c) :
    ∃ d, (compile t level).2 = .ok d ∧
      c.streams.map (·.name) = t.functions.map (·.name) ∧
      d.streams = c.streams.filter (fun s => t.reachable.contains s.name) ∧
      (∀ f ∈ t.functions, t.reachable.contains f.name = true ↔ t.Reached f) ∧
      ∀ name ∈ d.trampolines, name ∈ c.trampolines := by
  obtain ⟨products, ran⟩ := Compiler.exists_ran compiled
  have all : products.map (·.function) = t.functions :=
    ran.functions.trans (List.filter_eq_self.mpr fun _ _ => rfl)
  have names : products.map (·.function.name) = t.functions.map (·.name) := by
    rw [← all, List.map_map]
    rfl
  have kept : Compiler.isKept t level = fun f => t.reachable.contains f.name := by
    unfold Compiler.isKept
    rw [if_pos higher]
  have compiles := (ran.filter (Int64.le_trans (by decide) higher) t.reachable.contains).ok
  rw [← kept] at compiles
  refine ⟨_, compiles, ?_, rfl, ?_, ?_⟩
  · rw [← names, ran.streams, List.map_map]
    exact List.map_congr_left fun p inside => (ran.made p inside).stream_name
  · intro f inside
    rw [List.contains_iff_mem]
    exact Symbols.Table.mem_reachable_iff (names ▸ ran.distinct) inside
  · intro name needed
    rw [ran.trampolines]
    refine Lowering.mem_recorded.mpr ((Lowering.mem_recorded.mp needed).imp_left ?_)
    intro asked
    obtain ⟨p, inside, stub⟩ := List.mem_flatMap.mp asked
    exact List.mem_flatMap.mpr ⟨p, List.mem_of_mem_filter inside, stub⟩

/--
Two functions that call each other from `main`, an interrupt handler, and a function that calls
another bank but is not called.
-/
def relayTable : Table :=
  let calls (names : List String) : Option Source.Block :=
    some ⟨{}, names.map fun name => .expr {} (.call name [])⟩
  { functions := [
      { name := "main", body := calls ["ping"] },
      { name := "ping", body := calls ["pong"] },
      { name := "pong", body := calls ["ping"] },
      { name := "lost", body := calls ["far", "main"] },
      { name := "far", bank := 1 },
      { name := "tick", interrupt := true }] }

theorem compile_relayTable : ∃ c d, (compile relayTable 1).2 = .ok c ∧
    (compile relayTable 2).2 = .ok d ∧ c.trampolines = ["far"] ∧
    d.streams.map (·.name) = ["main", "ping", "pong", "tick"] ∧
    d.streams = c.streams.filter (fun s => relayTable.reachable.contains s.name) := by
  have evaluated : (compile relayTable 1).2.toOption.any (fun c => c.trampolines = ["far"] ∧
      (c.streams.filter (fun s => relayTable.reachable.contains s.name)).map (·.name) =
        ["main", "ping", "pong", "tick"]) = true := by
    decide +kernel
  cases compiled : (compile relayTable 1).2 with
  | error failure =>
    rw [compiled] at evaluated
    cases evaluated
  | ok c =>
    rw [compiled] at evaluated
    obtain ⟨trampolines, names⟩ := of_decide_eq_true evaluated
    obtain ⟨d, higher, -, streams, -⟩ := compile_reachable relayTable 2 (by decide) c compiled
    exact ⟨c, d, rfl, higher, trampolines, streams ▸ names, streams⟩

end Backend6502

namespace Backend6502.Generator

open Code (Stream)
open Lowering (recorded)
open Symbols (Function)

/-- The generators know the same symbols, and have generated the same streams. -/
structure Alike (g h : Generator) : Prop where
  symbols : g.symbols = h.symbols
  streams : g.streams = h.streams

/-- What comes out if functions are generated one after another. -/
def generateAll (g : Generator) : List Function → List (Except GenerateError Stream)
  | [] => []
  | f :: rest => (g.generate f).2 :: (g.generate f).1.generateAll rest

/-- The outcome does not depend on the trampolines, and neither does what is added to them. -/
theorem generate_alike (g : Generator) (f : Function) : ∃ names, ∀ h, Alike g h →
    (h.generate f).2 = (g.generate f).2 ∧ Alike (g.generate f).1 (h.generate f).1 ∧
      (h.generate f).1.trampolines = recorded names h.trampolines := by
  by_cases used : g.streams.any (·.name == f.name) = true
  · refine ⟨[], fun h alike => ?_⟩
    have usedToo := used
    rw [alike.streams] at usedToo
    rw [generate, generate, if_pos used, if_pos usedToo]
    exact ⟨rfl, alike, rfl⟩
  · obtain ⟨outcome, names, -, same⟩ := generate_fresh g.symbols f
    have free : ∀ s ∈ g.streams, s.name ≠ f.name := by simpa using used
    refine ⟨names, fun h alike => ?_⟩
    rw [same g rfl free, same h alike.symbols.symm (alike.streams ▸ free)]
    exact ⟨rfl, ⟨alike.symbols, congrArg (· ++ _) alike.streams⟩, rfl⟩

theorem Alike.generateAll {g h : Generator} (alike : Alike g h) (later : List Function) :
    h.generateAll later = g.generateAll later := by
  induction later generalizing g h with
  | nil => rfl
  | cons f rest ih =>
    obtain ⟨names, same⟩ := generate_alike g f
    obtain ⟨outcome, after, -⟩ := same h alike
    rw [Generator.generateAll, outcome, ih after, Generator.generateAll]

theorem streams_of_error {g : Generator} {f : Function} {e : GenerateError}
    (fails : (g.generate f).2 = .error e) : Alike g (g.generate f).1 := by
  unfold generate at fails ⊢
  split
  · exact ⟨rfl, rfl⟩
  · next free =>
    rw [if_neg free] at fails
    split at fails
    · cases fails
    · exact ⟨rfl, rfl⟩

/--
A generation that fails leaves the streams as they were, and all functions that are generated later
come out as without it. Calls across banks may be added to the known ones, the same whatever these
are.
-/
theorem generate_error {g : Generator} {f : Function} {e : GenerateError}
    (fails : (g.generate f).2 = .error e) :
    (g.generate f).1.streams = g.streams ∧
      (∀ later, (g.generate f).1.generateAll later = g.generateAll later) ∧
      ∃ names, ∀ h, Alike g h → (h.generate f).2 = .error e ∧
        (h.generate f).1.trampolines = recorded names h.trampolines := by
  have kept := streams_of_error fails
  obtain ⟨names, same⟩ := generate_alike g f
  refine ⟨kept.streams.symm, kept.generateAll, names, fun h alike => ?_⟩
  obtain ⟨outcome, -, added⟩ := same h alike
  exact ⟨outcome.trans fails, added⟩

/-- A call across banks, and a jump out of no loop. -/
def strayFunction : Function where
  name := "stray"
  body := some ⟨{}, [.expr {} (.call "far" []), .leave {}]⟩

theorem generate_strayFunction : (generate ⟨bankTable, [], []⟩ strayFunction).2 =
    .error (.failure (.error ⟨.strayBreak, 0⟩)) := by
  rfl

/-- The functions of the program come out the same after the failure. -/
theorem generateAll_after_strayFunction :
    (generate ⟨bankTable, [], []⟩ strayFunction).2 = .error (.failure (.error ⟨.strayBreak, 0⟩)) ∧
      (generate ⟨bankTable, [], []⟩ strayFunction).1.generateAll bankTable.functions =
        generateAll ⟨bankTable, [], []⟩ bankTable.functions :=
  ⟨generate_strayFunction, (generate_error generate_strayFunction).2.1 _⟩

/-- The call before the failure stays recorded, and asks for a trampoline. -/
theorem failed_call_recorded :
    ¬ ∀ (g : Generator) (f : Function) (e : GenerateError), (g.generate f).2 = .error e →
      (g.generate f).1.trampolines = g.trampolines := by
  intro always
  cases always _ _ _ generate_strayFunction

/-- A counting loop whose update fails, around a statement. -/
def lateFunction (loop body : Int64) : Function where
  name := "late"
  body := some ⟨{}, [.forLoop { pos := loop } .absent .absent
    (.incDec .preInc (.var "lost" .absent)) (.expr { pos := body } .absent)]⟩

/-- The update of a loop is reported at the statement that was entered last, and not at the loop. -/
theorem update_not_at_loop : ¬ ∀ (loop body : Int64) (e : Lowering.CompileError),
      (generate ⟨{}, [], []⟩ (lateFunction loop body)).2 = .error (.failure (.error e)) →
        e.pos = loop := by
  intro always
  exact absurd (always 10 20 ⟨.unknownIdentifier "lost", 20⟩ rfl) (by decide)

end Backend6502.Generator
