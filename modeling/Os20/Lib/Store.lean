import Os20.Lib.Transition
import Mathlib.Logic.Function.Basic

/-!
# A store with a lock for each key

Parties `P` lock a key, read and write its value while they hold the lock, and unlock it.
-/

namespace Os20.Lib.Store

open Os20.Lib.Transition

structure State (P K V : Type*) where
  value : K → V
  holder : K → Option P

inductive Act (P K V : Type*) where
  | lock (p : P) (k : K)
  | read (p : P) (k : K) (v : V)
  | write (p : P) (k : K) (v : V)
  | unlock (p : P) (k : K)

variable {P K V : Type*} [DecidableEq P] [DecidableEq K] [DecidableEq V]

def next (t : State P K V) : Act P K V → Option (State P K V)
  | .lock p k =>
      if t.holder k = none then some { t with holder := Function.update t.holder k (some p) }
      else none
  | .read p k v => if t.holder k = some p ∧ t.value k = v then some t else none
  | .write p k v =>
      if t.holder k = some p then some { t with value := Function.update t.value k v } else none
  | .unlock p k =>
      if t.holder k = some p then some { t with holder := Function.update t.holder k none }
      else none

def store (P : Type*) [DecidableEq P] (value : K → V) : System (State P K V) (Act P K V) where
  init t := t = ⟨value, fun _ => none⟩
  next := next

end Os20.Lib.Store
