/-
# `EvmTrans.Lib.LinearMemory` — an unbounded array of cells with block reads and writes.

`read` and `write` move a list of cells at a time. The lemmas are the frame rules: a write is what
one reads back, and nothing outside its range moves.
-/
import Mathlib.Tactic.Common

namespace EvmTrans.Lib

variable {β : Type}

/-- The memory after `bs` is written at `a`. -/
def write (m : Nat → β) (a : Nat) (bs : List β) : Nat → β :=
  fun i => if h : a ≤ i ∧ i - a < bs.length then bs.get ⟨i - a, h.2⟩ else m i

/-- The `n` cells from `a` on. -/
def read (m : Nat → β) (a n : Nat) : List β := (List.range n).map fun j => m (a + j)

/-- `i` is one of the `n` cells from `a` on. -/
def InRange (a n i : Nat) : Prop := a ≤ i ∧ i < a + n

/-- No cell is in both ranges. -/
def Apart (a n b k : Nat) : Prop := a + n ≤ b ∨ b + k ≤ a

instance (a n b k : Nat) : Decidable (Apart a n b k) := inferInstanceAs (Decidable (_ ∨ _))

variable {m : Nat → β} {a b n k i : Nat} {bs : List β}

@[simp] theorem length_read (m : Nat → β) (a n : Nat) : (read m a n).length = n := by
  simp [read]

theorem getElem_read {j : Nat} (h : j < (read m a n).length) : (read m a n)[j] = m (a + j) := by
  simp [read]

/-- **Frame**: a write touches its own range only. -/
theorem write_of_not_inRange (h : ¬ InRange a bs.length i) : write m a bs i = m i := by
  unfold write
  rw [dif_neg]
  rintro ⟨h1, h2⟩
  exact h ⟨h1, by omega⟩

theorem write_add {j : Nat} (h : j < bs.length) : write m a bs (a + j) = bs[j] := by
  unfold write
  rw [dif_pos ⟨Nat.le_add_right a j, by omega⟩]
  simp

theorem write_nil (m : Nat → β) (a : Nat) : write m a [] = m :=
  funext fun _ => write_of_not_inRange fun h => Nat.not_lt.mpr h.1 h.2

/-- The same write keeps two memories together. -/
theorem write_congr {m' : Nat → β} (h : m' i = m i) : write m' a bs i = write m a bs i := by
  unfold write
  split
  · rfl
  · exact h

/-- A long write is two short ones. -/
theorem write_append {cs : List β} :
    write m a (bs ++ cs) = write (write m a bs) (a + bs.length) cs := by
  funext i
  by_cases hc : InRange (a + bs.length) cs.length i
  · obtain ⟨j, rfl⟩ := Nat.exists_eq_add_of_le hc.1
    have hj : j < cs.length := Nat.add_lt_add_iff_left.mp hc.2
    have hlong : bs.length + j < (bs ++ cs).length := by rw [List.length_append]; omega
    rw [write_add hj, Nat.add_assoc, write_add hlong,
      List.getElem_append_right (Nat.le_add_right ..)]
    simp only [Nat.add_sub_cancel_left]
  · rw [write_of_not_inRange hc]
    by_cases hb : InRange a bs.length i
    · obtain ⟨j, rfl⟩ := Nat.exists_eq_add_of_le hb.1
      have hj : j < bs.length := Nat.add_lt_add_iff_left.mp hb.2
      have hlong : j < (bs ++ cs).length := by rw [List.length_append]; omega
      rw [write_add hj, write_add hlong, List.getElem_append_left hj]
    · rw [write_of_not_inRange hb, write_of_not_inRange]
      rw [List.length_append]
      rintro ⟨h1, h2⟩
      rcases Nat.lt_or_ge i (a + bs.length) with h | h
      · exact hb ⟨h1, h⟩
      · exact hc ⟨h, by omega⟩

/-- Writes apart from each other may be swapped. -/
theorem write_comm {cs : List β} (h : Apart a bs.length b cs.length) :
    write (write m a bs) b cs = write (write m b cs) a bs := by
  funext i
  by_cases hb : InRange b cs.length i
  · have ha : ¬ InRange a bs.length i := by
      rintro ⟨h1, h2⟩
      obtain ⟨h3, h4⟩ := hb
      rcases h with h | h <;> omega
    rw [write_of_not_inRange ha]
    obtain ⟨j, rfl⟩ := Nat.exists_eq_add_of_le hb.1
    have hj : j < cs.length := Nat.add_lt_add_iff_left.mp hb.2
    rw [write_add hj, write_add hj]
  · rw [write_of_not_inRange hb]
    exact write_congr (write_of_not_inRange hb).symm

/-- A memory is the one behind a write when it has the cells written, and the others of the old
memory. -/
theorem eq_write_iff {m' : Nat → β} (h : ∀ i, ¬ InRange a bs.length i → m' i = m i) :
    m' = write m a bs ↔ ∀ j (hj : j < bs.length), m' (a + j) = bs[j] := by
  constructor
  · rintro rfl j hj
    exact write_add hj
  · intro hbytes
    funext i
    by_cases hi : InRange a bs.length i
    · obtain ⟨j, rfl⟩ := Nat.exists_eq_add_of_le hi.1
      have hj : j < bs.length := Nat.add_lt_add_iff_left.mp hi.2
      rw [hbytes j hj, write_add hj]
    · rw [h i hi, write_of_not_inRange hi]

/-- What was written is read back. -/
theorem read_write_self (m : Nat → β) (a : Nat) (bs : List β) :
    read (write m a bs) a bs.length = bs := by
  refine List.ext_getElem (length_read ..) fun j h₁ h₂ => ?_
  rw [getElem_read, write_add h₂]

theorem read_congr {m' : Nat → β} (h : ∀ i, InRange a n i → m' i = m i) :
    read m' a n = read m a n := by
  refine List.map_congr_left fun j hj => h _ ⟨Nat.le_add_right a j, ?_⟩
  have := List.mem_range.mp hj
  omega

/-- A write apart from a range leaves the range alone. -/
theorem read_write_apart (h : Apart b bs.length a n) : read (write m b bs) a n = read m a n := by
  refine read_congr fun i hi => write_of_not_inRange fun hw => ?_
  obtain ⟨h1, h2⟩ := hi
  obtain ⟨h3, h4⟩ := hw
  rcases h with h | h <;> omega

/-- A long read is two short ones. -/
theorem read_add (m : Nat → β) (a n k : Nat) :
    read m a (n + k) = read m a n ++ read m (a + n) k := by
  simp only [read, List.range_add, List.map_append, List.map_map]
  congr 1
  refine List.map_congr_left fun j _ => ?_
  simp only [Function.comp_apply, Nat.add_assoc]

end EvmTrans.Lib
