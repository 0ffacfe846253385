import Backend6502.Proofs.SymbolTables
import Backend6502.Symbols.Layout
import Mathlib

/-!
# Where variables lie

The layout counts up two addresses, one in the zero page and one behind it. As long as no sum wraps
around, every variable gets a range of its own between these addresses and the end of its part of
the memory. The bound on a variable is checked with wrapping numbers, though, so a variable of about
`2 ^ 63` bytes passes, and what comes after it may lie anywhere.
-/

namespace Backend6502.Symbols

variable {placed : List (String × UInt16)} {v : Variable} {zeroPage ram : Int64}
  {vars : List Variable}
variable {entry : String × UInt16}

namespace Variable

/-- Does the layout choose the address? -/
def isPlaced (v : Variable) : Bool :=
  !v.isConst && v.address == 0

/-- The number of bytes, however large it is. -/
def extent (v : Variable) : Nat :=
  v.size.toInt.toNat * if 0 < v.length then v.length.toInt.toNat else 1

/-- The addresses of the bytes if the first one is at `start`. -/
def range (v : Variable) (start : UInt16) : Set Nat :=
  Set.Ico start.toNat (start.toNat + v.extent)

/-- Is the number of bytes so small that it can be added to an address without wrapping around? -/
def Fits (v : Variable) : Prop :=
  v.extent + 0x1000 < 2 ^ 63

/-- Elements have one byte or two. -/
def IsSized (v : Variable) : Prop :=
  v.size = 1 ∨ v.size = 2

instance (v : Variable) : Decidable v.Fits :=
  inferInstanceAs (Decidable (_ < _))

variable {v : Variable}

theorem IsSized.toInt (sized : v.IsSized) : v.size.toInt = 1 ∨ v.size.toInt = 2 := by
  rcases sized with one | two
  · exact .inl (one ▸ rfl)
  · exact .inr (two ▸ rfl)

theorem extent_of_length (several : 0 < v.length) (sized : v.IsSized) :
    (v.extent : Int) = v.size.toInt * v.length.toInt ∧ 0 < v.length.toInt := by
  have positive := Int64.lt_iff_toInt_lt.mp several
  rw [Int64.toInt_zero] at positive
  refine ⟨?_, positive⟩
  rw [extent, if_pos several, Int.natCast_mul, Int.toNat_of_nonneg positive.le,
    Int.toNat_of_nonneg (by have := sized.toInt; omega)]

theorem extent_of_single (single : ¬0 < v.length) (sized : v.IsSized) :
    (v.extent : Int) = v.size.toInt := by
  rw [extent, if_neg single, Nat.mul_one, Int.toNat_of_nonneg (by have := sized.toInt; omega)]

theorem IsSized.extent_pos (sized : v.IsSized) : 0 < v.extent := by
  have size := sized.toInt
  by_cases several : 0 < v.length
  · obtain ⟨product, positive⟩ := extent_of_length several sized
    rcases size with one | two
    · rw [one] at product
      omega
    · rw [two] at product
      omega
  · have only := extent_of_single several sized
    omega

/-- The number of bytes that the layout counts with is the real one, if it fits. -/
theorem Fits.toInt_byteCount (fits : v.Fits) (sized : v.IsSized) :
    v.byteCount.toInt = v.extent := by
  have small : v.extent + 0x1000 < 2 ^ 63 := fits
  by_cases several : 0 < v.length
  · obtain ⟨product, -⟩ := extent_of_length several sized
    rw [byteCount, if_pos several, Int64.toInt_mul, ← product,
      Int.bmod_eq_of_le (by omega) (by omega)]
  · rw [byteCount, if_neg several, extent_of_single several sized]

/-- The address behind a variable that fits is counted without wrapping around. -/
theorem Fits.toInt_add_byteCount {start : Int64} (fits : v.Fits) (sized : v.IsSized)
    (low : 0 ≤ start.toInt) (high : start.toInt ≤ 0x1000) :
    (start + v.byteCount).toInt = start.toInt + v.extent := by
  have small : v.extent + 0x1000 < 2 ^ 63 := fits
  rw [Int64.toInt_add, fits.toInt_byteCount sized, Int.bmod_eq_of_le (by omega) (by omega)]

end Variable

/-- An address that has 16 bits stays as it is. -/
theorem toNat_addressOf {n : Int64} (low : 0 ≤ n.toInt) (high : n.toInt < 0x10000) :
    (addressOf n).toNat = n.toInt.toNat := by
  have positive : 0 ≤ n := by
    rw [Int64.le_iff_toInt_le, Int64.toInt_zero]
    exact low
  rw [addressOf, UInt64.toNat_toUInt16, Int64.toNat_toUInt64_of_le positive, Int64.toNatClampNeg]
  omega

/--
Variables with their addresses, from the first free ones on. Variables that are placed have ranges
of their own, in their part of the memory.
-/
structure Arranged (zeroPage ram : Nat) (vars : List Variable) (placed : List (String × UInt16)) :
    Prop where
  /-- Nothing else has an address. -/
  only : ∀ name, name ∉ vars.map (·.name) → placed.lookup name = none
  constant : ∀ v ∈ vars, v.isConst = true → placed.lookup v.name = none
  fixed : ∀ v ∈ vars, v.isConst = false → v.address ≠ 0 →
    placed.lookup v.name = some (addressOf v.address)
  low : ∀ v ∈ vars, v.isPlaced = true → v.memory = .zeroPage →
    ∃ start, placed.lookup v.name = some start ∧ v.range start ⊆ Set.Ico zeroPage 0x100
  high : ∀ v ∈ vars, v.isPlaced = true → v.memory ≠ .zeroPage →
    ∃ start, placed.lookup v.name = some start ∧ v.range start ⊆ Set.Ico ram 0x1000
  apart : ∀ v ∈ vars, ∀ u ∈ vars, v.isPlaced = true → u.isPlaced = true → v.name ≠ u.name →
    ∀ a b, placed.lookup v.name = some a → placed.lookup u.name = some b →
      Disjoint (v.range a) (u.range b)

namespace Arranged

variable {zeroPage ram zeroPage' ram' : Nat} {vars : List Variable} {v : Variable}
  {placed : List (String × UInt16)}
variable {start : UInt16}

theorem nil (zeroPage ram : Nat) : Arranged zeroPage ram [] [] where
  only _ _ := rfl
  constant := nofun
  fixed := nofun
  low := nofun
  high := nofun
  apart := nofun

section

variable (arranged : Arranged zeroPage ram vars placed)

include arranged

/-- A constant takes no room. -/
theorem skip (new : v.name ∉ vars.map (·.name))
    (const : v.isConst = true) : Arranged zeroPage ram (v :: vars) placed := by
  have unplaced : v.isPlaced = false := by rw [Variable.isPlaced, const]; rfl
  constructor
  · intro name missing
    exact arranged.only name fun inside => missing (List.mem_cons_of_mem _ inside)
  · rintro u (_ | ⟨_, inside⟩) same
    · exact arranged.only v.name new
    · exact arranged.constant u inside same
  · rintro u (_ | ⟨_, inside⟩) other
    · cases const.symm.trans other
    · exact arranged.fixed u inside other
  · rintro u (_ | ⟨_, inside⟩) here
    · cases unplaced.symm.trans here
    · exact arranged.low u inside here
  · rintro u (_ | ⟨_, inside⟩) here
    · cases unplaced.symm.trans here
    · exact arranged.high u inside here
  · rintro u (_ | ⟨_, inside⟩) w (_ | ⟨_, others⟩) here there
    · cases unplaced.symm.trans here
    · cases unplaced.symm.trans here
    · cases unplaced.symm.trans there
    · exact arranged.apart u inside w others here there

theorem range_low (inside : v ∈ vars) (free : v.isPlaced = true) (place : v.memory = .zeroPage)
    (found : placed.lookup v.name = some start) : v.range start ⊆ Set.Ico zeroPage 0x100 := by
  obtain ⟨other, same, within⟩ := arranged.low v inside free place
  cases same.symm.trans found
  exact within

theorem range_high (inside : v ∈ vars) (free : v.isPlaced = true) (place : v.memory ≠ .zeroPage)
    (found : placed.lookup v.name = some start) : v.range start ⊆ Set.Ico ram 0x1000 := by
  obtain ⟨other, same, within⟩ := arranged.high v inside free place
  cases same.symm.trans found
  exact within

end

/-- The room between two pairs of addresses, below the first and above the second. -/
structure Advance (zeroPage zeroPage' ram ram' : Nat) : Prop where
  low : zeroPage ≤ zeroPage'
  bound : zeroPage' ≤ 0x100
  between : 0x100 ≤ ram
  high : ram ≤ ram'
  limit : ram' ≤ 0x1000

/-- The addresses of a variable are among those that were passed over. -/
structure Takes (v : Variable) (start : UInt16) (zeroPage zeroPage' ram ram' : Nat) : Prop where
  stored : v.isConst = false
  fixed : v.address ≠ 0 → start = addressOf v.address
  low : v.isPlaced = true → v.memory = .zeroPage → v.range start ⊆ Set.Ico zeroPage zeroPage'
  high : v.isPlaced = true → v.memory ≠ .zeroPage → v.range start ⊆ Set.Ico ram ram'

theorem disjoint_range (arranged : Arranged zeroPage' ram' vars placed) {b : UInt16}
    (advance : Advance zeroPage zeroPage' ram ram')
    (takes : Takes v start zeroPage zeroPage' ram ram') {u : Variable} (inside : u ∈ vars)
    (free : v.isPlaced = true) (alsoFree : u.isPlaced = true)
    (found : placed.lookup u.name = some b) : Disjoint (v.range start) (u.range b) := by
  by_cases mine : v.memory = .zeroPage
  · by_cases its : u.memory = .zeroPage
    · exact Set.Ico_disjoint_Ico_same.mono (takes.low free mine)
        (arranged.range_low inside alsoFree its found)
    · refine Disjoint.mono (takes.low free mine) (arranged.range_high inside alsoFree its found) ?_
      rw [Set.Ico_disjoint_Ico]
      have := advance.bound
      have := advance.between
      have := advance.high
      omega
  · by_cases its : u.memory = .zeroPage
    · refine Disjoint.mono (takes.high free mine) (arranged.range_low inside alsoFree its found) ?_
      rw [Set.Ico_disjoint_Ico]
      have := advance.between
      omega
    · exact Set.Ico_disjoint_Ico_same.mono (takes.high free mine)
        (arranged.range_high inside alsoFree its found)

/-- A variable with its address before the others. -/
theorem cons (arranged : Arranged zeroPage' ram' vars placed) (new : v.name ∉ vars.map (·.name))
    (advance : Advance zeroPage zeroPage' ram ram')
    (takes : Takes v start zeroPage zeroPage' ram ram') :
    Arranged zeroPage ram (v :: vars) ((v.name, start) :: placed) := by
  have here : List.lookup v.name ((v.name, start) :: placed) = some start := by simp
  have elsewhere {name : String} (other : name ≠ v.name) :
      List.lookup name ((v.name, start) :: placed) = placed.lookup name := by
    rw [List.lookup_cons, beq_false_of_ne other]
  have there {u : Variable} (inside : u ∈ vars) :
      List.lookup u.name ((v.name, start) :: placed) = placed.lookup u.name :=
    elsewhere fun same => new (same ▸ List.mem_map_of_mem inside)
  constructor
  · intro name missing
    rw [List.map_cons, List.mem_cons, not_or] at missing
    rw [elsewhere missing.1, arranged.only name missing.2]
  · rintro u (_ | ⟨_, inside⟩) const
    · cases takes.stored.symm.trans const
    · rw [there inside, arranged.constant u inside const]
  · rintro u (_ | ⟨_, inside⟩) plain given
    · rw [here, takes.fixed given]
    · rw [there inside, arranged.fixed u inside plain given]
  · rintro u (_ | ⟨_, inside⟩) free place
    · exact ⟨start, here, (takes.low free place).trans (Set.Ico_subset_Ico_right advance.bound)⟩
    · rw [there inside]
      obtain ⟨a, found, within⟩ := arranged.low u inside free place
      exact ⟨a, found, within.trans (Set.Ico_subset_Ico_left advance.low)⟩
  · rintro u (_ | ⟨_, inside⟩) free place
    · exact ⟨start, here, (takes.high free place).trans (Set.Ico_subset_Ico_right advance.limit)⟩
    · rw [there inside]
      obtain ⟨a, found, within⟩ := arranged.high u inside free place
      exact ⟨a, found, within.trans (Set.Ico_subset_Ico_left advance.high)⟩
  · rintro u (_ | ⟨_, inside⟩) w (_ | ⟨_, others⟩) free alsoFree differ a b foundA foundB
    · exact absurd rfl differ
    · cases here.symm.trans foundA
      exact arranged.disjoint_range advance takes others free alsoFree (there others ▸ foundB)
    · cases here.symm.trans foundB
      exact (arranged.disjoint_range advance takes inside alsoFree free
        (there inside ▸ foundA)).symm
    · rw [there inside] at foundA
      rw [there others] at foundB
      exact arranged.apart u inside w others free alsoFree differ a b foundA foundB

end Arranged

/-- The layout of the other variables comes first. -/
theorem consed {others : Except LayoutError (List (String × UInt16))}
    (done : (do let rest ← others; return entry :: rest) = Except.ok placed) :
    ∃ rest, others = .ok rest ∧ placed = entry :: rest := by
  cases others with
  | error e => cases done
  | ok rest =>
    cases done
    exact ⟨rest, rfl, rfl⟩

/-- A variable at a counted address takes the addresses up to the next one. -/
theorem range_addressOf {start : Int64} (fits : v.Fits) (sized : v.IsSized)
    (low : 0 ≤ start.toInt) (high : start.toInt ≤ 0x1000) :
    v.range (addressOf start) =
      Set.Ico start.toInt.toNat (start + v.byteCount).toInt.toNat := by
  have behind := fits.toInt_add_byteCount sized low high
  have first : (addressOf start).toNat = start.toInt.toNat := toNat_addressOf low (by omega)
  have last : (start + v.byteCount).toInt.toNat = start.toInt.toNat + v.extent := by omega
  rw [Variable.range, first, last]

/-- What the layout does with the first variable. -/
theorem placeVariables_cons
    (done : placeVariables zeroPage ram (v :: vars) = .ok placed) :
    (v.isConst = true ∧ placeVariables zeroPage ram vars = .ok placed) ∨
      v.isConst = false ∧ ∃ rest,
        (v.address ≠ 0 ∧ placed = (v.name, addressOf v.address) :: rest ∧
          placeVariables zeroPage ram vars = .ok rest) ∨
        (v.address = 0 ∧ v.memory = .zeroPage ∧ placed = (v.name, addressOf zeroPage) :: rest ∧
          zeroPage + v.byteCount ≤ zeroPageEnd ∧
          placeVariables (zeroPage + v.byteCount) ram vars = .ok rest) ∨
        (v.address = 0 ∧ v.memory ≠ .zeroPage ∧ placed = (v.name, addressOf ram) :: rest ∧
          ram + v.byteCount ≤ ramEnd ∧
          placeVariables zeroPage (ram + v.byteCount) vars = .ok rest) := by
  rw [placeVariables] at done
  split at done
  · next const => exact .inl ⟨const, done⟩
  next stored =>
    refine .inr ⟨eq_false_of_ne_true stored, ?_⟩
    split at done
    · next given =>
      obtain ⟨rest, others, rfl⟩ := consed done
      exact ⟨rest, .inl ⟨given, rfl, others⟩⟩
    next free =>
      have free : v.address = 0 := Decidable.not_not.mp free
      split at done
      · next place =>
        split at done
        · cases done
        next room =>
          obtain ⟨rest, others, rfl⟩ := consed done
          exact ⟨rest, .inr (.inl ⟨free, place, rfl, Int64.not_lt.mp room, others⟩)⟩
      · next place =>
        split at done
        · cases done
        next room =>
          obtain ⟨rest, others, rfl⟩ := consed done
          exact ⟨rest, .inr (.inr ⟨free, place, rfl, Int64.not_lt.mp room, others⟩)⟩

theorem placeVariables_arranged
    (done : placeVariables zeroPage ram vars = .ok placed)
    (names : (vars.map (·.name)).Nodup) (sized : ∀ v ∈ vars, v.IsSized)
    (fits : ∀ v ∈ vars, v.isPlaced = true → v.Fits)
    (low : 0 ≤ zeroPage.toInt) (bound : zeroPage.toInt ≤ 0x100)
    (between : 0x100 ≤ ram.toInt) (limit : ram.toInt ≤ 0x1000) :
    Arranged zeroPage.toInt.toNat ram.toInt.toNat vars placed := by
  induction vars generalizing zeroPage ram placed with
  | nil =>
    cases done
    exact .nil _ _
  | cons v vars ih =>
    obtain ⟨new, names⟩ := List.nodup_cons.mp names
    obtain ⟨own, sized⟩ := List.forall_mem_cons.mp sized
    obtain ⟨mine, fits⟩ := List.forall_mem_cons.mp fits
    rcases placeVariables_cons done with ⟨const, others⟩ | ⟨stored, rest, cases⟩
    · exact (ih others names sized fits low bound between limit).skip new const
    rcases cases with ⟨given, rfl, others⟩ | ⟨free, place, rfl, room, others⟩ |
      ⟨free, place, rfl, room, others⟩
    · have unplaced : v.isPlaced = false := by simp [Variable.isPlaced, given]
      refine (ih others names sized fits low bound between limit).cons new
        ⟨Nat.le_refl _, by omega, by omega, Nat.le_refl _, by omega⟩ ⟨stored, fun _ => rfl, ?_, ?_⟩
      · exact fun placed => nomatch unplaced.symm.trans placed
      · exact fun placed => nomatch unplaced.symm.trans placed
    · have fit := mine (by simp [Variable.isPlaced, stored, free])
      have behind := fit.toInt_add_byteCount own low (by omega)
      have room : (zeroPage + v.byteCount).toInt ≤ 0x100 := Int64.le_iff_toInt_le.mp room
      refine (ih others names sized fits (by omega) room between limit).cons new
        ⟨by omega, by omega, by omega, Nat.le_refl _, by omega⟩
        ⟨stored, fun given => absurd free given, ?_, fun _ other => absurd place other⟩
      exact fun _ _ => (range_addressOf fit own low (by omega)).subset
    · have fit := mine (by simp [Variable.isPlaced, stored, free])
      have behind := fit.toInt_add_byteCount own (by omega) limit
      have room : (ram + v.byteCount).toInt ≤ 0x1000 := Int64.le_iff_toInt_le.mp room
      refine (ih others names sized fits low bound (by omega) room).cons new
        ⟨Nat.le_refl _, by omega, by omega, by omega, by omega⟩
        ⟨stored, fun given => absurd free given, fun _ other => absurd other place, ?_⟩
      exact fun _ _ => (range_addressOf fit own (by omega) limit).subset

theorem lookup_cons_ite (entry : String × UInt16) (rest : List (String × UInt16)) (name : String) :
    List.lookup name (entry :: rest) =
      if name = entry.1 then some entry.2 else rest.lookup name := by
  rw [List.lookup_cons]
  by_cases same : name = entry.1
  · rw [if_pos same, beq_iff_eq.mpr same]
  · rw [if_neg same, beq_false_of_ne same]

theorem lookup_insertBy {comesBefore : String × UInt16 → String × UInt16 → Bool}
    (new : placed.lookup entry.1 = none) (name : String) :
    (insertBy comesBefore entry placed).lookup name =
      if name = entry.1 then some entry.2 else placed.lookup name := by
  induction placed with
  | nil => exact lookup_cons_ite entry [] name
  | cons other rest ih =>
    rw [insertBy]
    split
    · exact lookup_cons_ite entry _ name
    · rw [lookup_cons_ite] at new ⊢
      split at new
      · cases new
      next differs =>
        rw [ih new, lookup_cons_ite]
        by_cases same : name = entry.1
        · rw [if_neg (same ▸ differs), if_pos same, if_pos same]
        · rw [if_neg same, if_neg same]

/-- The addresses that a layout is meant to give. -/
structure LaidOut (t : Table) (addresses : List (String × UInt16)) : Prop where
  scratch : addresses.lookup scratchCell = some scratchAddress
  constant : ∀ v ∈ t.vars, v.isConst = true → addresses.lookup v.name = none
  fixed : ∀ v ∈ t.vars, v.isConst = false → v.address ≠ 0 →
    addresses.lookup v.name = some (addressOf v.address)
  low : ∀ v ∈ t.vars, v.isPlaced = true → v.memory = .zeroPage →
    ∃ start, addresses.lookup v.name = some start ∧ v.range start ⊆ Set.Ico 0x81 0x100
  /-- Another one lies between the stack and the code. -/
  high : ∀ v ∈ t.vars, v.isPlaced = true → v.memory ≠ .zeroPage →
    ∃ start, addresses.lookup v.name = some start ∧ v.range start ⊆ Set.Ico 0x200 0x1000
  apart : ∀ v ∈ t.vars, ∀ u ∈ t.vars, v.isPlaced = true → u.isPlaced = true → v ≠ u →
    ∀ a b, addresses.lookup v.name = some a → addresses.lookup u.name = some b →
      Disjoint (v.range a) (u.range b)
  clear : ∀ v ∈ t.vars, v.isPlaced = true → ∀ start, addresses.lookup v.name = some start →
    scratchAddress.toNat ∉ v.range start

/-- A variable that lies below an address is not larger than it. -/
theorem extent_le_of_range (sized : v.IsSized) {start : UInt16} {first last : Nat}
    (within : v.range start ⊆ Set.Ico first last) : v.extent ≤ last := by
  have positive := sized.extent_pos
  have inside : start.toNat + v.extent - 1 ∈ v.range start := by
    rw [Variable.range, Set.mem_Ico]
    omega
  have below := (within inside).2
  omega

namespace LaidOut

variable {t : Table} {addresses : List (String × UInt16)}

/-- Variables that have a range of their own fit into the memory. -/
theorem fits (laidOut : LaidOut t addresses) (sized : ∀ v ∈ t.vars, v.IsSized) :
    ∀ v ∈ t.vars, v.isPlaced = true → v.Fits := by
  intro v member placed
  unfold Variable.Fits
  by_cases place : v.memory = .zeroPage
  · obtain ⟨start, -, within⟩ := laidOut.low v member placed place
    have small := extent_le_of_range (sized v member) within
    omega
  · obtain ⟨start, -, within⟩ := laidOut.high v member placed place
    have small := extent_le_of_range (sized v member) within
    omega

theorem of_arranged {placed : List (String × UInt16)} (names : (t.vars.map (·.name)).Nodup)
    (arranged : Arranged 0x81 0x200 t.vars placed)
    (free : scratchCell ∉ t.vars.map (·.name))
    (added : ∀ name, addresses.lookup name =
      if name = scratchCell then some scratchAddress else placed.lookup name) :
    LaidOut t addresses := by
  have other {v : Variable} (member : v ∈ t.vars) :
      addresses.lookup v.name = placed.lookup v.name := by
    rw [added, if_neg]
    intro same
    exact free (same ▸ List.mem_map_of_mem member)
  exact {
    scratch := by rw [added, if_pos rfl]
    constant := fun v member const => (other member).trans (arranged.constant v member const)
    fixed := fun v member stored given =>
      (other member).trans (arranged.fixed v member stored given)
    low := fun v member => by
      rw [other member]
      exact arranged.low v member
    high := fun v member => by
      rw [other member]
      exact arranged.high v member
    apart := fun v member u others free alsoFree differ a b => by
      rw [other member, other others]
      exact arranged.apart v member u others free alsoFree
        (fun same => differ (List.inj_on_of_nodup_map names member others same)) a b
    clear := fun v member free start found inside => by
      rw [other member] at found
      by_cases place : v.memory = .zeroPage
      · exact absurd (arranged.range_low member free place found inside).1 (by decide)
      · exact absurd (arranged.range_high member free place found inside).1 (by decide) }

end LaidOut

/-- A layout is as it should be exactly if every variable that it places fits. -/
theorem Table.laidOut_iff {t : Table} {addresses : List (String × UInt16)} (defined : t.Defined)
    (done : t.layout = .ok addresses) :
    LaidOut t addresses ↔ ∀ v ∈ t.vars, v.isPlaced = true → v.Fits := by
  refine ⟨fun laidOut => laidOut.fits defined.size_eq, fun fits => ?_⟩
  have free : scratchCell ∉ t.vars.map (·.name) := by
    intro inside
    obtain ⟨v, member, same⟩ := List.mem_map.mp inside
    have unreserved := defined.isReserved_eq_false v member
    rw [same] at unreserved
    cases unreserved
  unfold layout at done
  cases placed : placeVariables zeroPageStart ramStart t.vars with
  | error e =>
    rw [placed] at done
    cases done
  | ok others =>
    rw [placed] at done
    cases done
    have arranged : Arranged 0x81 0x200 t.vars others :=
      placeVariables_arranged placed defined.names_nodup defined.size_eq fits (by decide)
        (by decide)
        (by decide) (by decide)
    exact .of_arranged defined.names_nodup arranged free (lookup_insertBy (arranged.only _ free))

/-- An array, a constant, a hardware register and a pointer in the zero page. -/
def mixedTable : Table where
  vars := [{ name := "buffer", size := 1, length := 16 },
    { name := "limit", size := 1, isConst := true, value := 9 },
    { name := "port", size := 1, address := 0x112D0 },
    { name := "source", memory := .zeroPage, size := 2, pointer := true }]

theorem mixedTable_defined : mixedTable.Defined :=
  .of_entries rfl

theorem mixedTable_laidOut :
    mixedTable.layout =
        .ok [("buffer", 0x200), ("cctmp", 0x80), ("port", 0x12D0), ("source", 0x81)] ∧
      LaidOut mixedTable [("buffer", 0x200), ("cctmp", 0x80), ("port", 0x12D0),
        ("source", 0x81)] := by
  have done : mixedTable.layout =
      .ok [("buffer", 0x200), ("cctmp", 0x80), ("port", 0x12D0), ("source", 0x81)] := by
    decide +kernel
  refine ⟨done, (Table.laidOut_iff mixedTable_defined done).mpr ?_⟩
  decide +kernel

/-- The first variable has `2 ^ 63` bytes, which counts as a negative number. -/
def wrappingTable : Table where
  vars := [{ name := "a", size := 2, length := 0x4000000000000000 }, { name := "b", size := 1 }]

theorem wrappingTable_defined : wrappingTable.Defined :=
  .of_entries rfl

/-- A layout can put two variables at the same address. -/
theorem not_laidOut_of_layout : ¬ ∀ (t : Table) (addresses : List (String × UInt16)),
    t.Defined → t.layout = .ok addresses → LaidOut t addresses := by
  intro always
  have done : wrappingTable.layout = .ok [("a", 0x200), ("b", 0x200), ("cctmp", 0x80)] := by
    decide +kernel
  have apart := (always wrappingTable _ wrappingTable_defined done).apart
    { name := "a", size := 2, length := 0x4000000000000000 } (by simp [wrappingTable])
    { name := "b", size := 1 } (by simp [wrappingTable]) rfl rfl (by simp) 0x200 0x200 rfl rfl
  have both : 0x200 ∈ Set.Ico 0x200 (0x200 + 2 ^ 63) ∩ Set.Ico 0x200 (0x200 + 1) := by simp
  exact Set.disjoint_iff.mp apart both

end Backend6502.Symbols
