import Mathlib.Data.List.Basic
import Mathlib.Data.List.Perm.Basic

/-!
# Queues

What left a queue in front, or entered it behind, in one step of a system that does not
do both at once; queues of positions in a store; and queues made of blocks of items that
are told apart by a key.
-/

namespace Queues

universe u

variable {Item : Type u}

def taken (before after : List Item) : List Item := before.take (before.length - after.length)

def appended (before after : List Item) : List Item := after.drop before.length

@[simp]
theorem taken_of_append (left rest : List Item) : taken (left ++ rest) rest = left := by
  simp [taken]

@[simp]
theorem taken_cons (head : Item) (rest : List Item) : taken (head :: rest) rest = [head] :=
  taken_of_append [head] rest

@[simp]
theorem taken_append (queue more : List Item) : taken queue (queue ++ more) = [] := by
  simp [taken]

@[simp]
theorem taken_self (queue : List Item) : taken queue queue = [] := by
  simp [taken]

@[simp]
theorem taken_tail (queue : List Item) : taken queue queue.tail = queue.take 1 := by
  cases queue with
  | nil => rfl
  | cons head rest => exact taken_cons head rest

@[simp]
theorem appended_append (queue more : List Item) : appended queue (queue ++ more) = more := by
  simp [appended]

@[simp]
theorem appended_self (queue : List Item) : appended queue queue = [] := by
  simp [appended]

@[simp]
theorem appended_of_append (left rest : List Item) : appended (left ++ rest) rest = [] := by
  simp [appended]

@[simp]
theorem appended_cons (head : Item) (rest : List Item) : appended (head :: rest) rest = [] :=
  appended_of_append [head] rest

end Queues

/-!
### Queues of references

A store keeps its items by position, and queues hold positions.  `deref` is the list
of items a queue stands for; it does not see items that are added, nor a change of an
item that is not in the queue.
-/

namespace Store

universe u

variable {Item : Type u} {items : List Item} {refs : List Nat}

def deref (items : List Item) (refs : List Nat) : List Item := refs.filterMap (items[·]?)

@[simp]
theorem deref_nil : deref items [] = [] := rfl

@[simp]
theorem deref_append (first second : List Nat) :
    deref items (first ++ second) = deref items first ++ deref items second :=
  List.filterMap_append

theorem deref_cons {ref : Nat} {item : Item} (present : items[ref]? = some item) :
    deref items (ref :: refs) = item :: deref items refs :=
  List.filterMap_cons_some present

theorem deref_grow (bound : ∀ ref ∈ refs, ref < items.length) (more : List Item) :
    deref (items ++ more) refs = deref items refs :=
  List.filterMap_congr fun ref membership => List.getElem?_append_left (bound ref membership)

theorem deref_set {ref : Nat} (absent : ref ∉ refs) (item : Item) :
    deref (items.set ref item) refs = deref items refs :=
  List.filterMap_congr fun other membership =>
    List.getElem?_set_ne (by rintro rfl; exact absent membership)

end Store

/-!
### Items with keys

A list that is made of blocks, each with a key of its own, is taken apart again by filtering
for the keys; and two lists have the same items when they do for every key.
-/

namespace Keyed

universe u v

variable {Item : Type u} {Key : Type v} [DecidableEq Key]

theorem filter_flatten (key : Item → Key) (name : Nat → Key) (injective : Function.Injective name)
    {blocks : List (List Item)}
    (marked : ∀ (j : Nat) block, blocks[j]? = some block → ∀ item ∈ block, key item = name j)
    {i : Nat} {block : List Item} (present : blocks[i]? = some block) :
    blocks.flatten.filter (fun item => key item = name i) = block := by
  induction blocks generalizing name i with
  | nil => simp at present
  | cons head blocks inductionHypothesis =>
      have first := marked 0 head rfl
      have later : ∀ (j : Nat) block, blocks[j]? = some block →
          ∀ item ∈ block, key item = name (j + 1) := fun j => marked (j + 1)
      rw [List.flatten_cons, List.filter_append]
      cases i with
      | zero =>
          obtain rfl := Option.some.inj present
          have own : head.filter (fun item => key item = name 0) = head :=
            List.filter_eq_self.mpr fun item known => decide_eq_true (first item known)
          have none : blocks.flatten.filter (fun item => key item = name 0) = [] := by
            rw [List.filter_eq_nil_iff]
            intro item known
            obtain ⟨block, blockKnown, inside⟩ := List.mem_flatten.mp known
            obtain ⟨j, found⟩ := List.getElem?_of_mem blockKnown
            rw [later j block found item inside, decide_eq_true_eq]
            exact fun same => absurd (injective same) (Nat.succ_ne_zero j)
          rw [own, none, List.append_nil]
      | succ i =>
          have none : head.filter (fun item => key item = name (i + 1)) = [] := by
            rw [List.filter_eq_nil_iff]
            intro item known
            rw [first item known, decide_eq_true_eq]
            exact fun same => absurd (injective same).symm (Nat.succ_ne_zero i)
          rw [none, List.nil_append]
          exact inductionHypothesis (fun j => name (j + 1))
            (fun _ _ same => Nat.succ.inj (injective same)) later present

/-- Lists are the same up to order if their items of each key are. -/
theorem perm_of_filters (key : Item → Key) {one other : List Item}
    (same : ∀ item ∈ one ++ other,
      (one.filter fun candidate => key candidate = key item).Perm
        (other.filter fun candidate => key candidate = key item)) : one.Perm other := by
  classical
  refine List.perm_iff_count.mpr fun item => ?_
  by_cases known : item ∈ one ++ other
  · have counts := (same item known).count_eq item
    simpa only [List.count_filter, decide_true] using counts
  · rw [List.mem_append, not_or] at known
    rw [List.count_eq_zero.mpr known.1, List.count_eq_zero.mpr known.2]

end Keyed
