import Mathlib.Data.List.Basic

/-! Fixed-size buffers filled from a stream, and tables of equally long rows laid
out one after the other. Every buffer is described by a function of the index,
so that the operations compose as functions and the size stays in the type. -/
namespace SesLabs.RowBuffer
variable {α : Type} {n : Nat}

def tabulate (n : Nat) (f : Nat → α) : Vector α n := Vector.ofFn (fun i => f i.val)

/- A read outside the buffer yields what lies behind it. -/
def load (past : Nat → α) (b : Vector α n) (k : Nat) : α := (b[k]?).getD (past k)

/- A write outside the buffer leaves the buffer as it is. -/
def store (b : Vector α n) (k : Nat) (v : α) : Vector α n := b.setIfInBounds k v

/- A read from a stream stores the bytes available and keeps the rest. -/
def refilled (b : Vector α n) (stream : List α) : Vector α n :=
  Vector.ofFn (fun i => (stream[i.val]?).getD b[i.val])

theorem tabulateAt (f : Nat → α) (k : Nat) :
    (tabulate n f)[k]? = if k < n then some (f k) else none := by
  by_cases inside : k < n
  · simp [tabulate,inside]
  · simp [inside]

@[simp] theorem loadTabulate (past f : Nat → α) (k : Nat) :
    load past (tabulate n f) k = if k < n then f k else past k := by
  unfold load
  rw [tabulateAt]
  split <;> rfl

theorem tabulateCongr {f g : Nat → α} (same : ∀ k < n, f k = g k) : tabulate n f = tabulate n g := by
  unfold tabulate
  congr 1
  funext i
  exact same i.val i.isLt

@[simp] theorem storeTabulate (f : Nat → α) (k : Nat) (v : α) :
    store (tabulate n f) k v = tabulate n (Function.update f k v) := by
  ext i hi
  simp only [store,tabulate,Vector.getElem_setIfInBounds,Vector.getElem_ofFn,Function.update_apply]
  by_cases same : k = i
  · simp [same]
  · simp [same,Ne.symm same]

@[simp] theorem replicateTabulate (v : α) : Vector.replicate n v = tabulate n (fun _ => v) := by
  ext i hi
  simp [tabulate]

@[simp] theorem refilledTabulate (f : Nat → α) (stream : List α) :
    refilled (tabulate n f) stream = tabulate n (fun k => (stream[k]?).getD (f k)) := by
  ext i hi
  simp [refilled,tabulate]

@[simp] theorem tabulateList (f : Nat → α) : (tabulate n f).toList = (List.range n).map f := by
  apply List.ext_getElem
  · simp
  · intro i hi hj
    simp [tabulate]

theorem refilledAt (b : Vector α n) {stream : List α} {k : Nat} (inside : k < n)
    (available : k < stream.length) : (refilled b stream)[k]? = stream[k]? := by
  simp [refilled,inside,available]

theorem refilledList (b : Vector α n) {stream : List α} (full : n ≤ stream.length) :
    (refilled b stream).toList = stream.take n := by
  apply List.ext_getElem?
  intro k
  by_cases inside : k < n
  · rw [Vector.getElem?_toList,refilledAt b inside (Nat.lt_of_lt_of_le inside full),
      List.getElem?_take,if_pos inside]
  · rw [List.getElem?_eq_none (by simpa using inside),List.getElem?_eq_none (by simp; omega)]

section Refill
variable (s : Nat) (data : List α) (init : Nat → α)

/- The content of one buffer of `s` bytes, reused for every row, after `r` reads. -/
def refill : Nat → Nat → α
  | 0, k => init k
  | r+1, k => (data[r*s+k]?).getD (refill r k)

variable {s data init}

theorem refillStep (r : Nat) : refilled (tabulate s (refill s data init r)) (data.drop (r*s)) =
    tabulate s (refill s data init (r+1)) := by
  rw [refilledTabulate]
  apply tabulateCongr
  intro k _
  simp [refill]

theorem refillAvailable {r k : Nat} {v : α} (found : data[r*s+k]? = some v) :
    refill s data init (r+1) k = v := by
  simp [refill,found]

theorem refillStale {r k : Nat} (missing : data.length ≤ r*s+k) :
    refill s data init (r+1) k = refill s data init r k := by
  simp [refill,missing]

theorem refillUntouched {r k : Nat} (missing : data.length ≤ k) : refill s data init r k = init k := by
  induction r with
  | zero => rfl
  | succ r ih =>
    rw [refillStale (by omega),ih]

theorem refillShort {r k : Nat} (short : data.length ≤ s) :
    refill s data init (r+1) k = (data[k]?).getD (init k) := by
  induction r with
  | zero => simp [refill]
  | succ r ih =>
    have past : s ≤ (r+1)*s := Nat.le_mul_of_pos_left s (Nat.succ_pos r)
    rw [refillStale (by omega),ih]

theorem refillSettled {r k : Nat} (other : Nat → α) (reached : k < data.length) :
    refill s data init (r+1) k = refill s data other (r+1) k := by
  induction r with
  | zero => simp [refill,reached]
  | succ r ih =>
    rw [refill,ih]
    rfl

end Refill

section Grid
variable {h s : Nat} {f g : Nat → Nat → α}

def grid (h s : Nat) (f : Nat → Nat → α) : List α :=
  (List.range h).flatMap (fun r => (List.range s).map (f r))

theorem gridSucc (h s : Nat) (f : Nat → Nat → α) :
    grid (h+1) s f = grid h s f ++ (List.range s).map (f h) := by
  simp [grid,List.range_succ]

@[simp] theorem gridLength (h s : Nat) (f : Nat → Nat → α) : (grid h s f).length = h*s := by
  induction h with
  | zero => simp [grid]
  | succ h ih => simp [gridSucc,ih,Nat.succ_mul]

theorem gridAt {r k : Nat} (row : r < h) (column : k < s) :
    (grid h s f)[r*s+k]? = some (f r k) := by
  induction h with
  | zero => omega
  | succ h ih =>
    rw [gridSucc]
    rcases Nat.lt_or_ge r h with earlier | last
    · have inside : r*s+k < h*s := by
        have step := Nat.mul_le_mul_right s (Nat.succ_le_of_lt earlier)
        rw [Nat.succ_mul] at step
        omega
      rw [List.getElem?_append_left (by simpa using inside)]
      exact ih earlier
    · obtain rfl : r = h := by omega
      rw [List.getElem?_append_right (by simp)]
      simp [column]

theorem gridCongr (same : ∀ r < h, ∀ k < s, f r k = g r k) : grid h s f = grid h s g := by
  unfold grid
  apply List.flatMap_congr
  intro r hr
  apply List.map_congr_left
  intro k hk
  exact same r (List.mem_range.mp hr) k (List.mem_range.mp hk)

theorem gridEqIff : grid h s f = grid h s g ↔ ∀ r < h, ∀ k < s, f r k = g r k := by
  constructor
  · intro same r hr k hk
    have cells := congrArg (fun l => l[r*s+k]?) same
    simpa [gridAt hr hk] using cells
  · exact gridCongr

theorem position {i : Nat} (inside : i < h*s) : ∃ r < h, ∃ k < s, i = r*s+k := by
  have width : 0 < s := Nat.pos_of_ne_zero (by rintro rfl; simp at inside)
  refine ⟨i/s,?_,i%s,Nat.mod_lt _ width,?_⟩
  · exact Nat.div_lt_of_lt_mul (by rwa [Nat.mul_comm] at inside)
  · rw [Nat.mul_comm]
    exact (Nat.div_add_mod i s).symm

theorem positionUnique {r r' k k' : Nat} (column : k < s) (column' : k' < s)
    (same : r*s+k = r'*s+k') : r = r' ∧ k = k' := by
  have rows : (r*s+k)/s = (r'*s+k')/s := by rw [same]
  have width : 0 < s := by omega
  rw [Nat.mul_comm r,Nat.mul_comm r',Nat.mul_add_div width,Nat.mul_add_div width,
    Nat.div_eq_of_lt column,Nat.div_eq_of_lt column'] at rows
  have equal : r = r' := by simpa using rows
  subst equal
  exact ⟨rfl,by omega⟩

theorem positionInside {r k : Nat} (row : r < h) (column : k < s) : r*s+k < h*s := by
  have step := Nat.mul_le_mul_right s (Nat.succ_le_of_lt row)
  rw [Nat.succ_mul] at step
  omega

end Grid
end SesLabs.RowBuffer
