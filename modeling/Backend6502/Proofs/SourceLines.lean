import Mathlib.Data.List.Induction
import Backend6502.Source.Diagnostic

/-!
# Lines of offsets

A map of lines is sorted by offset, and entries with one offset stay in the order in which they were
listed. So an offset belongs to the entry with the largest offset that does not exceed it, and of
several such entries to the one that was listed last (`resolve?_ofEntries`).
-/

namespace Backend6502.Source.LineMap

variable {entry first : LineEntry} {sorted rest : List LineEntry} {offset : Int64}

/-- No entry starts before the one that it follows. -/
abbrev Sorted (entries : List LineEntry) : Prop :=
  entries.Pairwise fun first second => first.offset ≤ second.offset

theorem mem_insert {other : LineEntry} :
    other ∈ insert entry sorted ↔ other = entry ∨ other ∈ sorted := by
  induction sorted with
  | nil => simp [insert]
  | cons first rest ih =>
    unfold insert
    split
    · exact List.mem_cons
    · rw [List.mem_cons, ih, List.mem_cons, or_left_comm]

theorem sorted_insert (entry : LineEntry) (ordered : Sorted sorted) :
    Sorted (insert entry sorted) := by
  induction sorted with
  | nil => exact List.pairwise_singleton _ _
  | cons first rest ih =>
    obtain ⟨least, below⟩ := List.pairwise_cons.mp ordered
    unfold insert
    split
    · next before =>
      refine List.pairwise_cons.mpr ⟨fun other inside => ?_, ordered⟩
      have start := Int64.le_of_lt before
      rcases List.mem_cons.mp inside with rfl | inside
      · exact start
      · exact Int64.le_trans start (least other inside)
    · next notBefore =>
      refine List.pairwise_cons.mpr ⟨fun other inside => ?_, ih below⟩
      rcases mem_insert.mp inside with rfl | inside
      · exact Int64.not_lt.mp notBefore
      · exact least other inside

theorem resolve?_cons : resolve? ⟨first :: rest⟩ offset =
    if first.offset ≤ offset then some ((resolve? ⟨rest⟩ offset).getD first) else none := by
  unfold resolve?
  by_cases starts : first.offset ≤ offset
  · rw [if_pos starts, ← List.getLast?_cons]
    exact congrArg _ (List.takeWhile_cons_of_pos (decide_eq_true starts))
  · rw [if_neg starts]
    exact congrArg List.getLast? (List.takeWhile_cons_of_neg (by simpa using starts))

theorem mem_of_resolve? (found : resolve? ⟨sorted⟩ offset = some entry) : entry ∈ sorted :=
  (List.takeWhile_sublist _).subset (List.mem_of_getLast? found)

/-- What is found behind an entry does not start before it. -/
theorem le_getD_resolve? (ordered : Sorted (first :: rest)) :
    first.offset ≤ ((resolve? ⟨rest⟩ offset).getD first).offset := by
  cases found : resolve? ⟨rest⟩ offset with
  | none => exact Int64.le_refl _
  | some other => exact (List.pairwise_cons.mp ordered).1 other (mem_of_resolve? found)

/-- A new entry is the one that is found if it starts in time and no later one was found before. -/
theorem resolve?_insert (ordered : Sorted sorted) : resolve? ⟨insert entry sorted⟩ offset =
    if entry.offset ≤ offset ∧ ∀ other, resolve? ⟨sorted⟩ offset = some other →
      other.offset ≤ entry.offset then some entry else resolve? ⟨sorted⟩ offset := by
  induction sorted with
  | nil =>
    rw [insert, resolve?_cons]
    simp [resolve?]
  | cons first rest ih =>
    have behind : first.offset ≤ ((resolve? ⟨rest⟩ offset).getD first).offset :=
      le_getD_resolve? ordered
    rw [insert]
    split
    · next before =>
      rw [resolve?_cons, resolve?_cons]
      split
      · next starts =>
        by_cases reached : first.offset ≤ offset
        · have later : ¬((resolve? ⟨rest⟩ offset).getD first).offset ≤ entry.offset :=
            fun early => Int64.not_le.mpr before (Int64.le_trans behind early)
          simp [reached, later]
        · simp [reached, starts]
      · next late =>
        have beyond : ¬first.offset ≤ offset :=
          fun reached => late (Int64.le_trans (Int64.le_of_lt before) reached)
        simp [late, beyond]
    · next notBefore =>
      have follows := Int64.not_lt.mp notBefore
      rw [resolve?_cons, resolve?_cons, ih (List.pairwise_cons.mp ordered).2]
      by_cases reached : first.offset ≤ offset
      · cases resolve? ⟨rest⟩ offset with
        | none => by_cases starts : entry.offset ≤ offset <;> simp [reached, starts, follows]
        | some other =>
          by_cases found : entry.offset ≤ offset ∧ other.offset ≤ entry.offset <;>
            simp [reached, found]
      · have late : ¬entry.offset ≤ offset := fun starts => reached (Int64.le_trans follows starts)
        simp [reached, late]

theorem ofEntries_append (entries : List LineEntry) (entry : LineEntry) :
    ofEntries (entries ++ [entry]) = ⟨insert entry (ofEntries entries).entries⟩ :=
  congrArg LineMap.mk List.foldl_append

theorem sorted_ofEntries (entries : List LineEntry) : Sorted (ofEntries entries).entries := by
  induction entries using List.reverseRecOn with
  | nil => exact .nil
  | append_singleton entries entry ih =>
    rw [ofEntries_append]
    exact sorted_insert entry ih

/--
The entry starts in time. No entry before it starts in time and later, and none behind it starts in
time and not earlier.
-/
def IsLatest (entries : List LineEntry) (offset : Int64) (entry : LineEntry) : Prop :=
  ∃ before after, entries = before ++ entry :: after ∧ entry.offset ≤ offset ∧
    (∀ e ∈ before, e.offset ≤ offset → e.offset ≤ entry.offset) ∧
    ∀ e ∈ after, e.offset ≤ offset → e.offset < entry.offset

theorem IsLatest.le {entries : List LineEntry} (latest : IsLatest entries offset entry)
    {e : LineEntry} (inside : e ∈ entries) (starts : e.offset ≤ offset) :
    e.offset ≤ entry.offset := by
  obtain ⟨before, after, rfl, -, notLater, earlier⟩ := latest
  rcases List.mem_append.mp inside with up | down
  · exact notLater e up starts
  · rcases List.mem_cons.mp down with rfl | below
    · exact Int64.le_refl _
    · exact Int64.le_of_lt (earlier e below starts)

/--
An offset belongs to no entry exactly if all entries start after it. Otherwise it belongs to the
entry with the largest offset that does not exceed it, the last listed one among equals.
-/
theorem resolve?_ofEntries (entries : List LineEntry) (offset : Int64) :
    ((ofEntries entries).resolve? offset = none ↔ ∀ e ∈ entries, offset < e.offset) ∧
      ∀ entry, (ofEntries entries).resolve? offset = some entry →
        IsLatest entries offset entry := by
  induction entries using List.reverseRecOn with
  | nil => exact ⟨⟨fun _ => List.forall_mem_nil _, fun _ => rfl⟩, nofun⟩
  | append_singleton entries last ih =>
    obtain ⟨missing, found⟩ := ih
    rw [ofEntries_append, resolve?_insert (sorted_ofEntries entries)]
    split
    · next newest =>
      refine ⟨⟨nofun, fun all => ?_⟩, ?_⟩
      · exact absurd newest.1 (Int64.not_le.mpr (all last (by simp)))
      · rintro _ ⟨⟩
        refine ⟨entries, [], rfl, newest.1, fun e inside starts => ?_, List.forall_mem_nil _⟩
        cases before : (ofEntries entries).resolve? offset with
        | none => exact absurd starts (Int64.not_le.mpr (missing.mp before e inside))
        | some other =>
          exact Int64.le_trans ((found other before).le inside starts)
            (newest.2 other before)
    · next older =>
      refine ⟨?_, fun entry before => ?_⟩
      · rw [List.forall_mem_append, List.forall_mem_singleton, ← missing]
        refine ⟨fun before => ⟨before, Int64.not_le.mp fun starts => older ⟨starts, ?_⟩⟩, And.left⟩
        rw [before]
        exact nofun
      · obtain ⟨above, below, rfl, inTime, notLater, earlier⟩ := found entry before
        refine ⟨above, below ++ [last], by simp, inTime, notLater, ?_⟩
        rw [List.forall_mem_append, List.forall_mem_singleton]
        refine ⟨earlier, fun starts => Int64.not_le.mp fun early => older ⟨starts, ?_⟩⟩
        rintro other same
        cases before.symm.trans same
        exact early

end Backend6502.Source.LineMap
