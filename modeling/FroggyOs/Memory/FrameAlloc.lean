import FroggyOs.Library.Memory
import FroggyOs.Library.Word

/-!
# The free-frame list (`memory/framealloc.c`)

`struct FreeFrameList` is a 24-byte header followed in place by the stack of free
frames, eight bytes each. `nextFree` points at the topmost used slot, `head` at the
first unused one.

`popFrameList` recognises the bottom by comparing `nextFree - 1` with the address
of the list. The slot below the first one is the header's own `numFrames`, two
words above the list's address, so the comparison fails when the last frame is
popped and `nextFree` is left pointing into the header. `DrainedList` is that
state: one more pop reads `numFrames` as a frame, and from there the list is no
stack any more. The list refines a stack exactly as long as no pop is made on a
drained list.
-/

namespace FroggyOs

open ByteMemory Word64

namespace FreeFrameList

abbrev head : Field := ⟨0, 8⟩
abbrev nextFree : Field := ⟨8, 8⟩
abbrev numFrames : Field := ⟨16, 8⟩

/-- `sizeof(struct FreeFrameList)`. -/
abbrev sizeof : Nat := 24

end FreeFrameList

namespace PhysFrame

abbrev physAddress : Field := ⟨0, 8⟩

/-- `sizeof(struct PhysFrame)`. -/
abbrev sizeof : Nat := 8

end PhysFrame

/-! ## The operations -/

/-- The header initialisation of `init_frame_list`. -/
def initFrameListHeader (m : Mem) (list : Nat) : Mem :=
  let m := m.put list FreeFrameList.nextFree 0
  let m := m.put list FreeFrameList.head (add64 list FreeFrameList.sizeof)
  m.put list FreeFrameList.numFrames 0

def pushFrameList (m : Mem) (list physAddress : Nat) : Mem :=
  let m := m.put list FreeFrameList.nextFree (m.get list FreeFrameList.head)
  let m := m.put (m.get list FreeFrameList.nextFree) PhysFrame.physAddress physAddress
  let m := m.put list FreeFrameList.numFrames (add64 (m.get list FreeFrameList.numFrames) 1)
  m.put list FreeFrameList.head (add64 (m.get list FreeFrameList.nextFree) PhysFrame.sizeof)

/-- Returns the popped address, or 0 for `NULL`. -/
def popFrameList (m : Mem) (list : Nat) : Nat × Mem :=
  if m.get list FreeFrameList.nextFree = 0 then (0, m)
  else
    let address := m.get (m.get list FreeFrameList.nextFree) PhysFrame.physAddress
    let below := sub64 (m.get list FreeFrameList.nextFree) PhysFrame.sizeof
    let m :=
      if below ≠ list then m.put list FreeFrameList.nextFree below
      else m.put list FreeFrameList.nextFree 0
    let m := m.put list FreeFrameList.numFrames (sub64 (m.get list FreeFrameList.numFrames) 1)
    (address,
      m.put list FreeFrameList.head (sub64 (m.get list FreeFrameList.head) PhysFrame.sizeof))

/-! ## The list as a stack -/

/-- The slots of the list hold the given stack, topmost frame first. -/
def Slots (m : Mem) (list : Nat) : List Nat → Prop
  | [] => True
  | frame :: rest =>
      m.load (list + 24 + 8 * rest.length) 8 = frame ∧
        Slots m list rest

/-- The list at `list` represents `stack`. An empty stack has two representations:
`nextFree` is `NULL` before the first push and points into the header afterwards. -/
structure FrameListRep (m : Mem) (list : Nat) (stack : List Nat) : Prop where
  fits : list + 24 + 8 * stack.length < 2 ^ 64
  numFrames : m.get list FreeFrameList.numFrames = stack.length
  head : m.get list FreeFrameList.head =
    list + 24 + 8 * stack.length
  nextFree : m.get list FreeFrameList.nextFree = list + 16 + 8 * stack.length ∨
    m.get list FreeFrameList.nextFree = 0 ∧ stack = []
  slots : Slots m list stack

/-- A list whose last frame has been popped: `nextFree` points at `numFrames`. -/
def DrainedList (m : Mem) (list : Nat) : Prop :=
  m.get list FreeFrameList.nextFree ≠ 0 ∧ m.get list FreeFrameList.numFrames = 0

instance (m : Mem) (list : Nat) : Decidable (DrainedList m list) :=
  inferInstanceAs (Decidable (_ ∧ _))

/-- Slots depend on the bytes behind the header only, up to the top of the stack. -/
theorem Slots.congr {m m' : Mem} {list : Nat} {stack : List Nat} (h : Slots m list stack)
    (hsame : ∀ x, list + 24 ≤ x →
      x < list + 24 + 8 * stack.length →
        m'.byte x = m.byte x) : Slots m' list stack := by
  induction stack with
  | nil => trivial
  | cons frame rest ih =>
      simp only [List.length_cons] at hsame
      refine ⟨?_, ih h.2 ?_⟩
      · rw [← h.1]
        apply Mem.load_congr
        rintro x ⟨hlow, hhigh⟩
        exact hsame x (by omega) (by omega)
      · intro x hlow hhigh
        exact hsame x hlow (by omega)

/-- A list represents one stack at most. -/
theorem FrameListRep.unique {m : Mem} {list : Nat} {stack stack' : List Nat}
    (h : FrameListRep m list stack) (h' : FrameListRep m list stack') : stack = stack' := by
  have hlength : stack.length = stack'.length := h.numFrames.symm.trans h'.numFrames
  have hslots := h.slots
  have hslots' := h'.slots
  clear h h'
  induction stack generalizing stack' with
  | nil => exact (List.eq_nil_of_length_eq_zero hlength.symm).symm
  | cons frame rest ih =>
      obtain _ | ⟨frame', rest'⟩ := stack'
      · cases hlength
      · simp only [List.length_cons, Nat.add_right_cancel_iff] at hlength
        have hframe : frame = frame' := by
          rw [← hslots.1, ← hslots'.1, hlength]
        rw [hframe, ih hlength hslots.2 hslots'.2]

theorem initFrameListHeader_rep (m : Mem) {list : Nat}
    (hfits : list + 24 < 2 ^ 64) :
    FrameListRep (initFrameListHeader m list) list [] := by
  have hhead : add64 list FreeFrameList.sizeof < 256 ^ 8 := add64_lt _ _
  constructor
  case fits => simpa using hfits
  case numFrames => exact Mem.get_put_same (by decide)
  case head =>
    simp only [initFrameListHeader]
    rw [Mem.get_put_disjoint (by simp), Mem.get_put_same hhead, add64_eq hfits]
    simp
  case nextFree =>
    right
    simp only [initFrameListHeader]
    rw [Mem.get_put_disjoint (by simp), Mem.get_put_disjoint (by simp)]
    exact ⟨Mem.get_put_same (by decide), trivial⟩
  case slots => trivial

/-- A push puts the frame on the stack, as long as its slot lies inside the
address space. -/
theorem pushFrameList_rep {m : Mem} {list : Nat} {stack : List Nat}
    (h : FrameListRep m list stack) (physAddress : Nat)
    (hroom : m.get list FreeFrameList.head + 8 < 2 ^ 64) :
    FrameListRep (pushFrameList m list physAddress) list (physAddress % 2 ^ 64 :: stack) := by
  have hhead := h.head
  have hnum := h.numFrames
  rw [hhead] at hroom
  -- the three header words and the new slot, in the order they are written
  generalize hm₁ : m.put list FreeFrameList.nextFree (m.get list FreeFrameList.head) = m₁
  have hnext₁ : m₁.get list FreeFrameList.nextFree =
      list + 24 + 8 * stack.length := by
    rw [← hm₁, hhead, Mem.get_put_same (by simp; omega)]
  have hnum₁ : m₁.get list FreeFrameList.numFrames = stack.length := by
    rw [← hm₁, Mem.get_put_disjoint (by simp), hnum]
  generalize hm₂ : m₁.put (m₁.get list FreeFrameList.nextFree) PhysFrame.physAddress
    physAddress = m₂
  rw [hnext₁] at hm₂
  have hnext₂ : m₂.get list FreeFrameList.nextFree =
      list + 24 + 8 * stack.length := by
    rw [← hm₂, Mem.get_put_disjoint (by simp; omega), hnext₁]
  have hnum₂ : m₂.get list FreeFrameList.numFrames = stack.length := by
    rw [← hm₂, Mem.get_put_disjoint (by simp), hnum₁]
  have hresult : pushFrameList m list physAddress =
      (m₂.put list FreeFrameList.numFrames (stack.length + 1)).put list FreeFrameList.head
        (list + 24 + 8 * (stack.length + 1)) := by
    simp only [pushFrameList, PhysFrame.sizeof, hm₁]
    rw [hnext₁, hm₂, hnum₂, Mem.get_put_disjoint (by simp), hnext₂,
      add64_eq (by simp; omega), add64_eq (by simp; omega)]
    rfl
  have hbytes : ∀ x, list + 24 ≤ x →
      (pushFrameList m list physAddress).byte x = m₂.byte x := by
    intro x hx
    rw [hresult, Mem.put_byte_outside (by simp; omega),
      Mem.put_byte_outside (by simp; omega)]
  constructor
  case fits =>
    simp only [List.length_cons]
    omega
  case numFrames =>
    rw [hresult, Mem.get_put_disjoint (by simp), Mem.get_put_same (by simp; omega)]
    rfl
  case head =>
    rw [hresult, Mem.get_put_same (by simp; omega)]
    rfl
  case nextFree =>
    left
    rw [hresult, Mem.get_put_disjoint (by simp), Mem.get_put_disjoint (by simp), hnext₂]
    simp
    omega
  case slots =>
    refine ⟨?_, h.slots.congr ?_⟩
    · have hload : m₂.load (list + 24 + 8 * stack.length) 8 = physAddress % 2 ^ 64 := by
        rw [← hm₂]
        exact Mem.load_store_same _ _ _ _
      rw [← hload]
      apply Mem.load_congr
      rintro x ⟨hlow, hhigh⟩
      exact hbytes x (by omega)
    · intro x hlow hhigh
      rw [hbytes x hlow, ← hm₂, Mem.put_byte_outside (by simp; omega), ← hm₁,
        Mem.put_byte_outside (by simp; omega)]

/-- Pushes in a row, as long as their slots lie inside the address space. -/
theorem foldl_pushFrameList_rep {m : Mem} {list : Nat} {stack frames : List Nat}
    (h : FrameListRep m list stack)
    (hframes : ∀ f ∈ frames, f < 2 ^ 64)
    (hfits : list + 24 + 8 * (stack.length + frames.length) < 2 ^ 64) :
    FrameListRep (frames.foldl (pushFrameList · list ·) m) list (frames.reverse ++ stack) := by
  induction frames generalizing m stack with
  | nil => simpa using h
  | cons f rest ih =>
      rw [List.length_cons] at hfits
      have hpush := pushFrameList_rep h f (by rw [h.head]; omega)
      rw [Nat.mod_eq_of_lt (hframes f List.mem_cons_self)] at hpush
      have hrest := ih hpush (fun g hg => hframes g (List.mem_cons_of_mem _ hg))
        (by rw [List.length_cons]; omega)
      simpa using hrest

/-- A pop returns a word. -/
theorem popFrameList_fst_lt (m : Mem) (list : Nat) : (popFrameList m list).1 < 2 ^ 64 := by
  rw [popFrameList]
  split
  · exact (by decide : 0 < 2 ^ 64)
  · exact Mem.get_lt _ _ PhysFrame.physAddress

/-- Before the first push, a pop returns `NULL` and changes nothing. -/
theorem popFrameList_null {m : Mem} {list : Nat}
    (h : m.get list FreeFrameList.nextFree = 0) : popFrameList m list = (0, m) := by
  rw [popFrameList, if_pos h]

/-- Frames have been pushed on the list at some time: `nextFree` is not `NULL`. -/
def UsedList (m : Mem) (list : Nat) : Prop := m.get list FreeFrameList.nextFree ≠ 0

section PopFrame

variable {m : Mem} {list frame : Nat} {rest : List Nat}

/-- The three header words a pop of a non-empty list writes. -/
theorem popFrameList_cons (h : FrameListRep m list (frame :: rest)) :
    popFrameList m list = (frame,
      ((m.put list FreeFrameList.nextFree (list + 16 + 8 * rest.length)).put list
        FreeFrameList.numFrames rest.length).put list FreeFrameList.head
          (list + 24 + 8 * rest.length)) := by
  have hfits := h.fits
  have hnum := h.numFrames
  have hhead := h.head
  simp only [List.length_cons] at hfits hnum hhead
  have hnext : m.get list FreeFrameList.nextFree = list + 24 + 8 * rest.length := by
    have := h.nextFree
    simp at this
    omega
  have hbelow : sub64 (list + 24 + 8 * rest.length) 8 = list + 16 + 8 * rest.length := by
    rw [sub64_eq (by omega) (by omega)]
    omega
  have htop : m.get (list + 24 + 8 * rest.length) PhysFrame.physAddress = frame := h.slots.1
  rw [popFrameList, hnext, if_neg (by omega)]
  simp only [PhysFrame.sizeof, hbelow]
  rw [if_pos (by omega), Mem.get_put_disjoint (by simp), hnum,
    Mem.get_put_disjoint (by simp), Mem.get_put_disjoint (by simp), hhead, htop,
    sub64_eq (by omega) (by omega), sub64_eq (by omega) (by omega)]
  have htop' : list + 24 + 8 * (rest.length + 1) - 8 = list + 24 + 8 * rest.length := by omega
  rw [htop', Nat.add_sub_cancel]

/-- A pop takes the topmost frame. -/
theorem popFrameList_rep (h : FrameListRep m list (frame :: rest)) :
    (popFrameList m list).1 = frame ∧ FrameListRep (popFrameList m list).2 list rest := by
  have hfits := h.fits
  simp only [List.length_cons] at hfits
  rw [popFrameList_cons h]
  refine ⟨rfl, ?_⟩
  constructor
  case fits => omega
  case numFrames =>
    rw [Mem.get_put_disjoint (by simp), Mem.get_put_same (by simp; omega)]
  case head => rw [Mem.get_put_same (by simp; omega)]
  case nextFree =>
    left
    rw [Mem.get_put_disjoint (by simp), Mem.get_put_disjoint (by simp),
      Mem.get_put_same (by simp; omega)]
  case slots =>
    apply h.slots.2.congr
    intro x hlow hhigh
    rw [Mem.put_byte_outside (by simp; omega), Mem.put_byte_outside (by simp; omega),
      Mem.put_byte_outside (by simp; omega)]

/-- `nextFree` does not become `NULL` again. -/
theorem popFrameList_used (h : FrameListRep m list (frame :: rest)) :
    UsedList (popFrameList m list).2 list := by
  have hfits := h.fits
  simp only [List.length_cons] at hfits
  rw [popFrameList_cons h, UsedList, Mem.get_put_disjoint (by simp),
    Mem.get_put_disjoint (by simp), Mem.get_put_same (by simp; omega)]
  omega

end PopFrame

/-! ## Below the bottom -/

/-- A pop of a drained list returns `NULL`, but it moves `nextFree` further down, to its
own address in the header. -/
theorem popFrameList_drained {m : Mem} {list : Nat} (h : FrameListRep m list [])
    (hne : UsedList m list) :
    (popFrameList m list).1 = 0 ∧
      (popFrameList m list).2.get list FreeFrameList.nextFree = list + 8 := by
  have hfits : list + 24 < 2 ^ 64 := h.fits
  have hnext : m.get list FreeFrameList.nextFree = list + 16 := by
    have := h.nextFree
    simp only [List.length_nil, and_true] at this
    exact this.resolve_right hne
  have hslot : m.get (list + 16) PhysFrame.physAddress = 0 := h.numFrames
  have hbelow : sub64 (list + 16) PhysFrame.sizeof = list + 8 := by
    rw [sub64_eq (b := PhysFrame.sizeof) (by change 8 ≤ _; omega) (by omega)]
    rfl
  rw [popFrameList, if_neg hne, hnext]
  refine ⟨hslot, ?_⟩
  simp only [hbelow]
  rw [if_pos (by omega), Mem.get_put_disjoint (by simp), Mem.get_put_disjoint (by simp),
    Mem.get_put_same (by simp; omega)]

/-- The pop after that takes the address of `nextFree` for a frame, and only then the
bottom is found. -/
theorem popFrameList_spent {m : Mem} {list : Nat} (hfits : list + 8 < 2 ^ 64)
    (h : m.get list FreeFrameList.nextFree = list + 8) :
    (popFrameList m list).1 = list + 8 ∧
      (popFrameList m list).2.get list FreeFrameList.nextFree = 0 := by
  have hslot : m.get (list + 8) PhysFrame.physAddress = list + 8 := h
  have hbelow : sub64 (list + 8) PhysFrame.sizeof = list := by
    rw [sub64_eq (b := PhysFrame.sizeof) (by change 8 ≤ _; omega) hfits]
    rfl
  rw [popFrameList, h, if_neg (by omega)]
  refine ⟨hslot, ?_⟩
  simp only [hbelow]
  rw [if_neg (by simp), Mem.get_put_disjoint (by simp), Mem.get_put_disjoint (by simp),
    Mem.get_put_same (by decide)]

end FroggyOs
