import TaskMarkup.Fault
import TaskMarkup.Token

namespace TaskMarkup

structure Lookahead where
  slots : Vector Token lookaheadSize
  head : Fin lookaheadSize
  size : Nat
  size_le : size ≤ lookaheadSize

namespace Lookahead

def empty : Lookahead where
  slots := Vector.replicate lookaheadSize (Token.eof 0)
  head := ⟨0, by decide⟩
  size := 0
  size_le := by decide

def slot (b : Lookahead) (n : Nat) : Fin lookaheadSize :=
  ⟨(b.head + n) % lookaheadSize, Nat.mod_lt _ (by decide)⟩

def get (b : Lookahead) (n : Nat) : Token := b.slots[b.slot n]

def push (b : Lookahead) (t : Token) : Lookahead :=
  if h : b.size < lookaheadSize then
    { slots := b.slots.set (b.slot b.size) t, head := b.head, size := b.size + 1, size_le := h }
  else b

def pop (b : Lookahead) : Lookahead where
  slots := b.slots
  head := b.slot 1
  size := b.size - 1
  size_le := Nat.le_trans (Nat.sub_le ..) b.size_le

def toList (b : Lookahead) : List Token := (List.range b.size).map b.get

@[simp] theorem length_toList (b : Lookahead) : b.toList.length = b.size := by
  simp [toList]

@[simp] theorem toList_empty : empty.toList = [] := rfl

theorem getElem?_toList (b : Lookahead) (n : Nat) :
    b.toList[n]? = if n < b.size then some (b.get n) else none := by
  by_cases h : n < b.size <;> simp [toList, h]

theorem get_push_of_lt {b : Lookahead} {n : Nat} (t : Token) (h : n < b.size) :
    (b.push t).get n = b.get n := by
  unfold push
  split
  · next hs =>
    show (b.slots.set (b.slot b.size) t)[b.slot n] = b.slots[b.slot n]
    have hne : (b.slot b.size : Nat) ≠ b.slot n := by
      show (b.head + b.size) % lookaheadSize ≠ (b.head + n) % lookaheadSize
      have := b.head.isLt
      simp only [lookaheadSize] at *
      omega
    simp [Vector.getElem_set_ne, hne]
  · rfl

theorem size_push {b : Lookahead} (t : Token) (h : b.size < lookaheadSize) :
    (b.push t).size = b.size + 1 := by
  simp [push, h]

theorem get_push_size {b : Lookahead} (t : Token) (h : b.size < lookaheadSize) :
    (b.push t).get b.size = t := by
  simp only [push, h, ↓reduceDIte]
  show (b.slots.set (b.slot b.size) t)[b.slot b.size] = t
  simp

theorem toList_push {b : Lookahead} (t : Token) (h : b.size < lookaheadSize) :
    (b.push t).toList = b.toList ++ [t] := by
  rw [toList, size_push t h, List.range_succ, List.map_append, List.map_singleton,
    get_push_size t h, toList]
  congr 1
  exact List.map_congr_left fun n hn => get_push_of_lt t (List.mem_range.1 hn)

theorem get_pop (b : Lookahead) (n : Nat) : b.pop.get n = b.get (n + 1) := by
  have h : b.pop.slot n = b.slot (n + 1) := by
    apply Fin.ext
    show ((b.head + 1) % lookaheadSize + n) % lookaheadSize = (b.head + (n + 1)) % lookaheadSize
    simp only [lookaheadSize]
    omega
  exact congrArg (fun i => b.slots[i]) h

theorem toList_pop (b : Lookahead) : b.pop.toList = b.toList.tail := by
  apply List.ext_getElem?
  intro n
  rw [List.getElem?_tail, getElem?_toList, getElem?_toList, get_pop]
  show (if n < b.size - 1 then _ else _) = _
  by_cases h : n + 1 < b.size
  · rw [if_pos h, if_pos (by omega)]
  · rw [if_neg h, if_neg (by omega)]

end Lookahead

end TaskMarkup
