import FroggyOs.Memory.FrameAlloc

/-!
# Runs of the free-frame list against a stack

A run is any sequence of `push_frame_list` and `pop_frame_list` calls on one list.
`TracksStack` compares it, call by call, with a LIFO stack of the pushed addresses:
every pop returns what the stack returns, `NULL` for the empty stack, and
`numFrames` is the depth of the stack after every call.

The list tracks the stack up to the first pop that is made on a drained list, and
not beyond it. A pop before the first push is harmless, because `nextFree` is still
`NULL` then.
-/

namespace FroggyOs

open ByteMemory Word64

inductive ListOp
  | push (physAddress : Nat)
  | pop

/-- One call on the list: what a pop returns, and the memory after it. -/
def stepList (m : Mem) (list : Nat) : ListOp → Option Nat × Mem
  | .push physAddress => (none, pushFrameList m list physAddress)
  | .pop => (some (popFrameList m list).1, (popFrameList m list).2)

/-- The same call on a stack of addresses. Popping the empty stack yields `NULL`. -/
def stepStack : List Nat → ListOp → Option Nat × List Nat
  | stack, .push physAddress => (none, physAddress % 2 ^ 64 :: stack)
  | [], .pop => (some 0, [])
  | frame :: rest, .pop => (some frame, rest)

/-- The slot a push writes lies inside the address space. -/
def PushFits (m : Mem) (list : Nat) : ListOp → Prop
  | .push _ => m.get list FreeFrameList.head + 8 < 2 ^ 64
  | .pop => True

/-- The call is no pop of a drained list. -/
def NoDrainedPop (m : Mem) (list : Nat) : ListOp → Prop
  | .push _ => True
  | .pop => ¬ DrainedList m list

/-- Every call of a run satisfies `P` in the memory it is made in. -/
def AllCalls (P : Mem → Nat → ListOp → Prop) (m : Mem) (list : Nat) : List ListOp → Prop
  | [] => True
  | op :: ops => P m list op ∧ AllCalls P (stepList m list op).2 list ops

/-- At every point of the run the list agrees with the stack. -/
def TracksStack (m : Mem) (list : Nat) : List Nat → List ListOp → Prop
  | stack, [] => m.get list FreeFrameList.numFrames = stack.length
  | stack, op :: ops =>
      m.get list FreeFrameList.numFrames = stack.length ∧
        (stepList m list op).1 = (stepStack stack op).1 ∧
          TracksStack (stepList m list op).2 list (stepStack stack op).2 ops

/-- One call keeps the representation, unless it pops a drained list. -/
theorem stepList_rep {m : Mem} {list : Nat} {stack : List Nat} (h : FrameListRep m list stack)
    {op : ListOp} (hroom : PushFits m list op) (hdrained : NoDrainedPop m list op) :
    (stepList m list op).1 = (stepStack stack op).1 ∧
      FrameListRep (stepList m list op).2 list (stepStack stack op).2 := by
  cases op with
  | push physAddress => exact ⟨rfl, pushFrameList_rep h physAddress hroom⟩
  | pop =>
      cases stack with
      | nil =>
          have hnull : m.get list FreeFrameList.nextFree = 0 := by
            by_contra hne
            exact hdrained ⟨hne, h.numFrames⟩
          simp only [stepList, stepStack, popFrameList_null hnull]
          exact ⟨trivial, h⟩
      | cons frame rest =>
          obtain ⟨hframe, hrep⟩ := popFrameList_rep h
          simp only [stepList, stepStack, hframe]
          exact ⟨trivial, hrep⟩

/-- A pop of a drained list leaves `numFrames` at `2 ^ 64 - 1`. -/
theorem popFrameList_numFrames_of_drained {m : Mem} {list : Nat} (h : DrainedList m list) :
    (popFrameList m list).2.get list FreeFrameList.numFrames = 2 ^ 64 - 1 := by
  obtain ⟨hnext, hnum⟩ := h
  have hkeep : ∀ v : Nat, (m.put list FreeFrameList.nextFree v).get list
      FreeFrameList.numFrames = 0 := by
    intro v
    rw [Mem.get_put_disjoint (by simp), hnum]
  rw [popFrameList, if_neg hnext]
  simp only []
  rw [Mem.get_put_disjoint (by simp), Mem.get_put_same (sub64_lt _ _)]
  split <;> rw [hkeep] <;> rfl

theorem TracksStack.numFrames {m : Mem} {list : Nat} {stack : List Nat} {ops : List ListOp}
    (h : TracksStack m list stack ops) :
    m.get list FreeFrameList.numFrames = stack.length := by
  cases ops with
  | nil => exact h
  | cons op ops => exact h.1

theorem tracksStack_iff_of_rep {m : Mem} {list : Nat} {stack : List Nat} {ops : List ListOp}
    (h : FrameListRep m list stack) (hroom : AllCalls PushFits m list ops) :
    TracksStack m list stack ops ↔ AllCalls NoDrainedPop m list ops := by
  induction ops generalizing m stack with
  | nil => exact iff_of_true h.numFrames trivial
  | cons op ops ih =>
      constructor
      · rintro ⟨_, _, htail⟩
        have hdrained : NoDrainedPop m list op := by
          cases op with
          | push _ => trivial
          | pop =>
              -- after such a pop `numFrames` is far above the depth of the stack
              intro hd
              have hempty : stack = [] :=
                List.eq_nil_of_length_eq_zero (h.numFrames.symm.trans hd.2)
              have hnum := htail.numFrames
              simp only [stepList, popFrameList_numFrames_of_drained hd, hempty, stepStack,
                List.length_nil] at hnum
              exact absurd hnum (by decide)
        exact ⟨hdrained, (ih (stepList_rep h hroom.1 hdrained).2 hroom.2).mp htail⟩
      · rintro ⟨hdrained, htail⟩
        obtain ⟨hresult, hrep⟩ := stepList_rep h hroom.1 hdrained
        exact ⟨h.numFrames, hresult, (ih hrep hroom.2).mpr htail⟩

/-- A list set up by `init_frame_list` is a stack in exactly those runs that pop no
drained list. -/
theorem tracksStack_iff (m : Mem) {list : Nat} (hfits : list + 24 < 2 ^ 64) (ops : List ListOp)
    (hroom : AllCalls PushFits (initFrameListHeader m list) list ops) :
    TracksStack (initFrameListHeader m list) list [] ops ↔
      AllCalls NoDrainedPop (initFrameListHeader m list) list ops :=
  tracksStack_iff_of_rep (initFrameListHeader_rep m hfits) hroom

section Evaluation

instance (m : Mem) (list : Nat) (op : ListOp) : Decidable (PushFits m list op) :=
  match op with
  | .push _ => inferInstanceAs (Decidable (_ < _))
  | .pop => inferInstanceAs (Decidable True)

instance (m : Mem) (list : Nat) (op : ListOp) : Decidable (NoDrainedPop m list op) :=
  match op with
  | .push _ => inferInstanceAs (Decidable True)
  | .pop => inferInstanceAs (Decidable (¬ _))

instance decidableAllCalls (P : Mem → Nat → ListOp → Prop) [∀ m list op, Decidable (P m list op)]
    (m : Mem) (list : Nat) : (ops : List ListOp) → Decidable (AllCalls P m list ops)
  | [] => inferInstanceAs (Decidable True)
  | op :: ops =>
      have := decidableAllCalls P (stepList m list op).2 list ops
      inferInstanceAs (Decidable (_ ∧ _))

instance decidableTracksStack (m : Mem) (list : Nat) (stack : List Nat) :
    (ops : List ListOp) → Decidable (TracksStack m list stack ops)
  | [] => inferInstanceAs (Decidable (_ = _))
  | op :: ops =>
      have := decidableTracksStack (stepList m list op).2 list (stepStack stack op).2 ops
      inferInstanceAs (Decidable (_ ∧ _ ∧ _))

end Evaluation

theorem tracksStack_push_pop :
    TracksStack (initFrameListHeader ⟨fun _ => 0⟩ 0x1000) 0x1000 [] [.pop, .push 0x5000, .pop] :=
  (tracksStack_iff ⟨fun _ => 0⟩ (by decide) [.pop, .push 0x5000, .pop] (by decide)).mpr
    (by decide)

theorem not_tracksStack_pop_twice :
    ¬ TracksStack (initFrameListHeader ⟨fun _ => 0⟩ 0x1000) 0x1000 []
      [.push 0x5000, .pop, .pop] := by
  decide

end FroggyOs
