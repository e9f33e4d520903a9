import SignalStrip.Term.Basic

/-! Caches of zero arrays. A cache hands out one array for each length until it is cleared. Its arrays are
told apart by the number of the allocation that made them, and other arrays by when they were handed out first. -/

namespace SignalStrip

structure SharedArray (A : Type) where
  samples : List A
  allocation : Nat
  deriving Repr

structure ZeroCache (A : Type) where
  arrays : List (Nat × SharedArray A)
  deriving Repr

namespace ZeroCache

variable {A : Type}

def empty : ZeroCache A :=
  ⟨[]⟩

def find? (cache : ZeroCache A) (length : Nat) : Option (SharedArray A) :=
  cache.arrays.lookup length

def insert (cache : ZeroCache A) (length : Nat) (array : SharedArray A) : ZeroCache A :=
  ⟨(length, array) :: cache.arrays⟩

def size (cache : ZeroCache A) : Nat :=
  cache.arrays.length

def isEmpty (cache : ZeroCache A) : Bool :=
  cache.arrays.isEmpty

end ZeroCache

/-- All caches by number, how many arrays have been allocated for them, how many others have been named, and what has
been logged. A cache that nobody has used is empty. -/
structure ZeroStore (A : Type) where
  caches : Nat → ZeroCache A
  allocated : Nat
  named : Nat
  log : Log

namespace ZeroStore

variable {A : Type}

def start (log : Log) : ZeroStore A :=
  ⟨fun _ => .empty, 0, 0, log⟩

def setCache (store : ZeroStore A) (number : Nat) (cache : ZeroCache A) : ZeroStore A :=
  { store with caches := fun other => if other = number then cache else store.caches other }

@[simp] theorem setCache_same (store : ZeroStore A) (number : Nat) (cache : ZeroCache A) :
    (store.setCache number cache).caches number = cache := by
  simp [setCache]

@[simp] theorem setCache_other (store : ZeroStore A) {number other : Nat} (different : other ≠ number)
    (cache : ZeroCache A) : (store.setCache number cache).caches other = store.caches other := by
  simp [setCache, different]

/-- The zeros of this length out of one of the caches, allocated if it has none. -/
def zeros [Zero A] (store : ZeroStore A) (number length : Nat) : SharedArray A × ZeroStore A :=
  let cache := store.caches number
  match cache.find? length with
  | some array => (array, store)
  | none =>
    let array := ⟨List.replicate length 0, store.allocated⟩
    let kept := store.setCache number (cache.insert length array)
    (array, { kept with
      allocated := store.allocated + 1
      log := store.log.push (.allocated length) })

def clear (store : ZeroStore A) (number : Nat) : ZeroStore A :=
  store.setCache number .empty

/-- The name that an array is handed out under. One that has been handed out before keeps its own. -/
def name (store : ZeroStore A) : Option ArrayName → ArrayName × ZeroStore A
  | some name => (name, store)
  | none => (.other store.named, { store with named := store.named + 1 })

end ZeroStore
end SignalStrip
