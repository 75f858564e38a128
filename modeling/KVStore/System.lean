import KVStore.Write
import KVStore.Lib.Run

/-!
# Concurrent calls of `WriteAsync`

Any family of calls, each at some point of its code, over one container. A step lets one call issue
its next operation: the service performs it (`served`), or raises a `StorageException` without
effect (`fault`), for the faults that `F` admits. A call that has not taken its first step has not
been started. The GUIDs of different calls are different.
-/

namespace KVStore

open Transition

universe u

structure Calls (ι : Type u) where
  call : ι → Call
  guid_injective : Function.Injective fun i => (call i).guidLocation

structure System (ι : Type u) where
  store : Container
  point : ι → WritePoint

structure Event (ι : Type u) where
  caller : ι
  op : BlobOp
  response : BlobResponse

abbrev Faults := BlobOp → HttpStatusCode → Prop

/-- No storage errors: the only exceptions are the answers to failed access conditions and to
operations on missing blobs. -/
def noFaults : Faults := fun _ _ => False

/-- Any storage error but a failed precondition, which the service answers to a changed ETag
only. -/
def serviceFaults : Faults := fun _ status => status ≠ .PreconditionFailed

def allFaults : Faults := fun _ _ => True

section

variable {ι : Type u} [DecidableEq ι] [Base64Url] (F : Faults) (calls : Calls ι)

def System.initial (store : Container) : System ι where
  store
  point _ := .upload

/-- Call `i` runs on with the answer to its operation. -/
def System.resume (s : System ι) (i : ι) (response : BlobResponse) (store : Container) :
    System ι where
  store
  point := Function.update s.point i ((s.point i).resume (calls.call i) response)

inductive Step : System ι → Event ι → System ι → Prop
  | served {s : System ι} {i : ι} {op : BlobOp} (h : (s.point i).request (calls.call i) = some op) :
      Step s { caller := i, op, response := (s.store.perform op).1 }
        (s.resume calls i (s.store.perform op).1 (s.store.perform op).2)
  | fault {s : System ι} {i : ι} {op : BlobOp} {status : HttpStatusCode}
      (h : (s.point i).request (calls.call i) = some op) (hF : F op status) :
      Step s { caller := i, op, response := .storageException status }
        (s.resume calls i (.storageException status) s.store)

variable {F calls} {s s' : System ι} {e : Event ι}

theorem Step.mono {F' : Faults} (hle : ∀ {op status}, F op status → F' op status)
    (hs : Step F calls s e s') : Step F' calls s e s' := by
  cases hs with
  | served hreq => exact .served hreq
  | fault hreq hf => exact .fault hreq (hle hf)

theorem Step.request (hs : Step F calls s e s') :
    (s.point e.caller).request (calls.call e.caller) = some e.op := by
  cases hs with
  | served hreq => exact hreq
  | fault hreq => exact hreq

theorem Step.point_caller (hs : Step F calls s e s') :
    s'.point e.caller = (s.point e.caller).resume (calls.call e.caller) e.response := by
  cases hs <;> exact Function.update_self ..

theorem Step.point_of_ne (hs : Step F calls s e s') {i : ι} (hi : i ≠ e.caller) :
    s'.point i = s.point i := by
  cases hs <;> exact Function.update_of_ne hi ..

/-- The service answers an operation, or a storage error does. -/
theorem Step.answer (hs : Step F calls s e s') :
    e.response = (s.store.perform e.op).1 ∧ s'.store = (s.store.perform e.op).2 ∨
      ∃ status, e.response = .storageException status := by
  cases hs with
  | served hreq => exact Or.inl ⟨rfl, rfl⟩
  | fault hreq hf => exact Or.inr ⟨_, rfl⟩

/-- No call is between its first operation and its end. -/
def Quiescent (s : System ι) : Prop :=
  ∀ i, s.point i = .upload ∨ ∃ o, s.point i = .finished o

/-- The call has not started, or has ended. -/
def WritePoint.atRest : WritePoint → Bool
  | .upload | .finished _ => true
  | _ => false

omit [DecidableEq ι] [Base64Url] in
theorem quiescent_of_atRest (h : ∀ i, (s.point i).atRest = true) : Quiescent s := by
  intro i
  have hi := h i
  generalize s.point i = point at hi ⊢
  cases point with
  | upload => exact Or.inl rfl
  | finished o => exact Or.inr ⟨o, rfl⟩
  | _ => cases hi

variable (F calls)

/-- Runs of the calls from a container in which none of them has started. -/
abbrev Runs (store : Container) : List (System ι × Event ι) → System ι → Prop :=
  Run (Step F calls) (System.initial store)

end

end KVStore
