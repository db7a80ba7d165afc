import Mathlib.Data.List.Basic

/-!
# Double-buffered queues

Two buffers and a flag naming the *running* one. Producers append to the other, the *receiving*
buffer; the consumer takes from the running buffer and, once it is empty, flips the flag. Read as
one queue, the structure holds the running buffer followed by the receiving one.

The consumer may hold its own copy of the flag, so `pop` and `flip` take the index they act on. The
queue reading survives both exactly when that copy is the running index, and `flip` moreover needs
the running buffer to have been emptied; these are the side conditions of `contents_pop` and
`contents_flip`.
-/

/-- Two buffers, one of which is running. -/
structure DoubleBuffer (α : Type*) where
  /-- The buffers. -/
  bufs : Bool → List α
  /-- The index of the running buffer. -/
  running : Bool

namespace DoubleBuffer

variable {α : Type*} (b : DoubleBuffer α)

def empty : DoubleBuffer α := ⟨fun _ ↦ [], false⟩

/-- The buffer the consumer takes from. -/
def front : List α := b.bufs b.running

/-- The buffer the producers append to. -/
def back : List α := b.bufs (!b.running)

/-- The queue the two buffers stand for. -/
def contents : List α := b.front ++ b.back

/-- Append to the receiving buffer. -/
def push (xs : List α) : DoubleBuffer α :=
  { b with bufs := Function.update b.bufs (!b.running) (b.bufs (!b.running) ++ xs) }

/-- Drop the first element of buffer `i`. -/
def pop (i : Bool) : DoubleBuffer α :=
  { b with bufs := Function.update b.bufs i (b.bufs i).tail }

/-- Make the buffer other than `i` the running one. -/
def flip (i : Bool) : DoubleBuffer α := { b with running := !i }

@[simp] theorem front_empty : (empty : DoubleBuffer α).front = [] := rfl

@[simp] theorem back_empty : (empty : DoubleBuffer α).back = [] := rfl

@[simp] theorem contents_empty : (empty : DoubleBuffer α).contents = [] := rfl

@[simp] theorem running_push (xs : List α) : (b.push xs).running = b.running := rfl

@[simp] theorem running_pop (i : Bool) : (b.pop i).running = b.running := rfl

@[simp] theorem running_flip (i : Bool) : (b.flip i).running = !i := rfl

@[simp] theorem bufs_flip (i : Bool) : (b.flip i).bufs = b.bufs := rfl

@[simp] theorem front_push (xs : List α) : (b.push xs).front = b.front := by
  simp [front, push, Function.update]

@[simp] theorem back_push (xs : List α) : (b.push xs).back = b.back ++ xs := by
  simp [back, push]

@[simp] theorem contents_push (xs : List α) : (b.push xs).contents = b.contents ++ xs := by
  simp [contents]

@[simp] theorem front_pop : (b.pop b.running).front = b.front.tail := by
  simp [front, pop]

@[simp] theorem back_pop : (b.pop b.running).back = b.back := by
  simp [back, pop, Function.update]

theorem contents_pop {x : α} {xs : List α} (h : b.front = x :: xs) :
    b.contents = x :: (b.pop b.running).contents := by
  simp [contents, h]

@[simp] theorem front_flip : (b.flip b.running).front = b.back := rfl

@[simp] theorem back_flip : (b.flip b.running).back = b.front := by
  simp [back, front, flip]

theorem contents_flip (h : b.front = []) : (b.flip b.running).contents = b.contents := by
  simp [contents, h]

end DoubleBuffer
