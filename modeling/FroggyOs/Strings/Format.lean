import FroggyOs.Strings.Itoa

/-!
# Format strings

What the formats of `printf` mean, apart from the code that prints them. `Parses` cuts a
format into items: characters, strings, pointers and numbers. The flags of a number are
as many as there are. `text` prints a list of items with its arguments, one for each item
but a character.

Two formats that follow each other may merge at the seam, where the second one goes on
with what the first one has begun. `Joins` excludes that, and then the items of the whole
are the items of the parts (`Parses.append`).
-/

namespace FroggyOs

open ByteMemory Numeral

/-- An argument that `va_arg` takes, with its type. -/
inductive Arg
  | str (s : CString)
  | int32 (v : Int32)
  | uint32 (v : UInt32)
  | int64 (v : Int64)
  | uint64 (v : UInt64)
deriving DecidableEq

inductive Kind
  | str
  | int32
  | uint32
  | int64
  | uint64
deriving DecidableEq

namespace Arg

def kind : Arg → Kind
  | str _ => .str
  | int32 _ => .int32
  | uint32 _ => .uint32
  | int64 _ => .int64
  | uint64 _ => .uint64

/-- The number that an argument stands for. -/
def value : Arg → Int
  | str _ => 0
  | int32 v => v.toInt
  | uint32 v => v.toNat
  | int64 v => v.toInt
  | uint64 v => v.toNat

end Arg

/-- The flags of a number but `p`. -/
def numberFlags : List UInt8 := [('i').toUInt8, ('u').toUInt8, ('h').toUInt8, ('l').toUInt8]

def flags : List UInt8 := ('p').toUInt8 :: numberFlags

/-- A part of a format. A number has the flags it is written with. -/
inductive Item
  | char (c : UInt8)
  | string
  | pointer
  | number (fs : List UInt8)
deriving DecidableEq

/-- The last flag for the length counts. -/
def isLong (fs : List UInt8) : Prop :=
  (fs.filter (· ∈ [('i').toUInt8, ('l').toUInt8])).getLast? = some ('l').toUInt8

instance (fs : List UInt8) : Decidable (isLong fs) :=
  inferInstanceAs (Decidable (_ = some ('l').toUInt8))

def numberBase (fs : List UInt8) : Nat := if ('h').toUInt8 ∈ fs then 16 else 10

def numberKind (fs : List UInt8) : Kind :=
  if ('u').toUInt8 ∈ fs then if isLong fs then .uint64 else .uint32
  else if isLong fs then .int64 else .int32

namespace Item

/-- The type of the argument that an item consumes. -/
def kind? : Item → Option Kind
  | char _ => none
  | string => some .str
  | pointer => some .uint64
  | number fs => some (numberKind fs)

end Item

/-- `0x` stands in front of a number of base 16, and of its sign. -/
def numberText (base : Nat) (v : Int) : List UInt8 :=
  (if base = 16 then [('0').toUInt8, ('x').toUInt8] else []) ++ signedNumeral base v

/-- The items printed with their arguments; the arguments are enough if they match. -/
def text : List Item → List Arg → List UInt8
  | [], _ => []
  | .char c :: items, args => c :: text items args
  | .string :: items, .str s :: args => s.bytes ++ text items args
  | .pointer :: items, arg :: args => numberText 16 arg.value ++ text items args
  | .number fs :: items, arg :: args => numberText (numberBase fs) arg.value ++ text items args
  | _, _ => []

/-- The arguments that the items consume are of their types. There may be more. -/
def Matches (items : List Item) (args : List Arg) : Prop :=
  items.filterMap Item.kind? <+: args.map Arg.kind

def consumed (items : List Item) (args : List Arg) : List Arg :=
  args.take (items.filterMap Item.kind?).length

def remaining (items : List Item) (args : List Arg) : List Arg :=
  args.drop (items.filterMap Item.kind?).length

section Arguments

variable {item : Item} {items : List Item} {args : List Arg} {k : Kind}

/-- An item with a type takes the first argument. -/
theorem matches_cons (hk : item.kind? = some k) : Matches (item :: items) args ↔
    ∃ arg rest, args = arg :: rest ∧ arg.kind = k ∧ Matches items rest := by
  rw [Matches, List.filterMap_cons_some hk]
  cases args with
  | nil =>
      rw [List.map_nil, List.prefix_nil]
      simp
  | cons arg args =>
      rw [List.map_cons, List.cons_prefix_cons]
      constructor
      · rintro ⟨rfl, hrest⟩
        exact ⟨arg, args, rfl, rfl, hrest⟩
      · rintro ⟨_, _, heq, rfl, hrest⟩
        cases heq
        exact ⟨rfl, hrest⟩

theorem consumed_cons (hk : item.kind? = some k) (arg : Arg) :
    consumed (item :: items) (arg :: args) = arg :: consumed items args := by
  rw [consumed, List.filterMap_cons_some hk]
  rfl

theorem remaining_cons (hk : item.kind? = some k) (arg : Arg) :
    remaining (item :: items) (arg :: args) = remaining items args := by
  rw [remaining, List.filterMap_cons_some hk]
  rfl

/-- What matches two lists of items matches the first, and the second one with the rest. -/
theorem Matches.of_append {items' : List Item} (h : Matches (items ++ items') args) :
    Matches items args ∧ Matches items' (remaining items args) := by
  rw [Matches, List.filterMap_append] at h
  obtain ⟨rest, hrest⟩ := h
  rw [List.append_assoc] at hrest
  refine ⟨⟨_, hrest⟩, rest, ?_⟩
  rw [remaining, List.map_drop, ← hrest, List.drop_left]

theorem consumed_append (items items' : List Item) (args : List Arg) :
    consumed (items ++ items') args =
      consumed items args ++ consumed items' (remaining items args) := by
  rw [consumed, List.filterMap_append, List.length_append, List.take_add]
  rfl

theorem text_append {items' : List Item} (h : Matches items args) :
    text (items ++ items') args = text items args ++ text items' (remaining items args) := by
  induction items generalizing args with
  | nil => rw [List.nil_append, text, List.nil_append]; rfl
  | cons item items ih =>
      cases item with
      | char c =>
          rw [List.cons_append, text, text, ih h]
          rfl
      | string =>
          obtain ⟨arg, args, rfl, hk, hrest⟩ := (matches_cons rfl).mp h
          cases arg with
          | str s =>
              rw [List.cons_append, text, text, ih hrest, List.append_assoc]
              rfl
          | int32 v => cases hk
          | uint32 v => cases hk
          | int64 v => cases hk
          | uint64 v => cases hk
      | pointer =>
          obtain ⟨arg, args, rfl, -, hrest⟩ := (matches_cons rfl).mp h
          rw [List.cons_append, text, text, ih hrest, List.append_assoc]
          rfl
      | number fs =>
          obtain ⟨arg, args, rfl, -, hrest⟩ := (matches_cons rfl).mp h
          rw [List.cons_append, text, text, ih hrest, List.append_assoc]
          rfl

end Arguments

/-- A format and its items. A `%` in front of any other character is skipped. -/
inductive Parses : List UInt8 → List Item → Prop
  | done : Parses [] []
  | char {c fmt items} : c ≠ ('%').toUInt8 → Parses fmt items → Parses (c :: fmt) (.char c :: items)
  | percent {c fmt items} : c = ('%').toUInt8 ∨ c = (' ').toUInt8 → Parses fmt items →
      Parses (('%').toUInt8 :: c :: fmt) (.char ('%').toUInt8 :: items)
  | string {fmt items} : Parses fmt items →
      Parses (('%').toUInt8 :: ('s').toUInt8 :: fmt) (.string :: items)
  | pointer {fs fmt items} : (∀ c ∈ fs, c ∈ numberFlags) → Parses fmt items →
      Parses (('%').toUInt8 :: (fs ++ ('p').toUInt8 :: fmt)) (.pointer :: items)
  | number {fs fmt items} : fs ≠ [] → (∀ c ∈ fs, c ∈ numberFlags) → (∀ c ∈ fmt.head?, c ∉ flags) →
      Parses fmt items → Parses (('%').toUInt8 :: (fs ++ fmt)) (.number fs :: items)
  | skip {c fmt items} : c ≠ ('%').toUInt8 → c ≠ (' ').toUInt8 → c ≠ ('s').toUInt8 → c ∉ flags →
      Parses (c :: fmt) items → Parses (('%').toUInt8 :: c :: fmt) items
  | lone : Parses [('%').toUInt8] []

/-! ## Every format has items -/

section Total

variable {fmt : List UInt8}

theorem mem_flags_iff {c : UInt8} : c ∈ flags ↔ c = ('p').toUInt8 ∨ c ∈ numberFlags :=
  List.mem_cons

/-- Behind a `%` stand as many flags as there are. -/
theorem exists_flags (fmt : List UInt8) : ∃ fs rest, fmt = fs ++ rest ∧
    (∀ c ∈ fs, c ∈ numberFlags) ∧ ∀ c ∈ rest.head?, c ∉ numberFlags := by
  induction fmt with
  | nil => exact ⟨[], [], rfl, by simp, by simp⟩
  | cons c fmt ih =>
      by_cases hc : c ∈ numberFlags
      · obtain ⟨fs, rest, rfl, hfs, hrest⟩ := ih
        exact ⟨c :: fs, rest, rfl, List.forall_mem_cons.mpr ⟨hc, hfs⟩, hrest⟩
      · exact ⟨[], c :: fmt, rfl, by simp, by simpa using hc⟩

/-- A `%` with flags, if what is shorter has items. -/
theorem exists_parses_flags {d : UInt8} (hflag : d ∈ flags)
    (ih : ∀ rest : List UInt8, rest.length ≤ fmt.length → ∃ items, Parses rest items) :
    ∃ items, Parses (('%').toUInt8 :: d :: fmt) items := by
  obtain ⟨fs, rest, hsplit, hfs, hrest⟩ := exists_flags (d :: fmt)
  have hlength : fs.length + rest.length = fmt.length + 1 := by
    rw [← List.length_append, ← hsplit, List.length_cons]
  rw [hsplit]
  by_cases hpointer : rest.head? = some ('p').toUInt8
  · obtain ⟨rest', rfl⟩ := List.head?_eq_some_iff.mp hpointer
    rw [List.length_cons] at hlength
    obtain ⟨items, hitems⟩ := ih rest' (by omega)
    exact ⟨_, .pointer hfs hitems⟩
  · have hend : ∀ c ∈ rest.head?, c ∉ flags := by
      intro c hhead hc
      obtain rfl | hc := mem_flags_iff.mp hc
      · exact hpointer hhead
      · exact hrest c hhead hc
    have hne : fs ≠ [] := by
      rintro rfl
      rw [List.nil_append] at hsplit
      subst hsplit
      exact hend d rfl hflag
    have hpos := List.length_pos_of_ne_nil hne
    obtain ⟨items, hitems⟩ := ih rest (by omega)
    exact ⟨_, .number hne hfs hend hitems⟩

theorem exists_parses (fmt : List UInt8) : ∃ items, Parses fmt items := by
  induction hn : fmt.length using Nat.strong_induction_on generalizing fmt with
  | _ n ih =>
  subst hn
  match fmt with
  | [] => exact ⟨[], .done⟩
  | c :: fmt =>
    by_cases hc : c ≠ ('%').toUInt8
    · obtain ⟨items, hitems⟩ := ih fmt.length (Nat.lt_succ_self _) fmt rfl
      exact ⟨_, .char hc hitems⟩
    rw [not_not] at hc
    subst hc
    match fmt with
    | [] => exact ⟨[], .lone⟩
    | d :: fmt =>
      have hshorter : ∀ rest : List UInt8, rest.length ≤ fmt.length → ∃ items, Parses rest items :=
        fun rest hrest => ih rest.length (by simp only [List.length_cons]; omega) rest rfl
      obtain ⟨items, hitems⟩ := hshorter fmt (Nat.le_refl _)
      by_cases hpercent : d = ('%').toUInt8 ∨ d = (' ').toUInt8
      · exact ⟨_, .percent hpercent hitems⟩
      by_cases hstring : d = ('s').toUInt8
      · subst hstring
        exact ⟨_, .string hitems⟩
      by_cases hflag : d ∈ flags
      · exact exists_parses_flags hflag hshorter
      obtain ⟨hneq, hspace⟩ := not_or.mp hpercent
      obtain ⟨items', hitems'⟩ := ih (d :: fmt).length (Nat.lt_succ_self _) (d :: fmt) rfl
      exact ⟨_, .skip hneq hspace hstring hflag hitems'⟩

end Total

theorem numberBase_bounds (fs : List UInt8) : 2 ≤ numberBase fs ∧ numberBase fs ≤ 16 := by
  rw [numberBase]
  split
  · decide
  · decide

theorem zero_notMem_numberText {base : Nat} (hbase : 2 ≤ base) (hmax : base ≤ 16) (v : Int) :
    0 ∉ numberText base v := by
  have hdigits : 0 ∉ signedNumeral base v := (signedString base v hbase hmax).noNul
  rw [numberText, List.mem_append, not_or]
  refine ⟨?_, hdigits⟩
  split
  · decide
  · exact List.not_mem_nil

/-- No byte 0 is printed. -/
theorem zero_notMem_text {items : List Item} {args : List Arg} (h : Parses fmt items)
    (hargs : Matches items args) (hnoNul : 0 ∉ fmt) : 0 ∉ text items args := by
  induction h generalizing args with
  | done => exact List.not_mem_nil
  | lone => exact List.not_mem_nil
  | char _ _ ih =>
      obtain ⟨hc, hrest⟩ := not_or.mp (mt List.mem_cons.mpr hnoNul)
      rw [text, List.mem_cons, not_or]
      exact ⟨hc, ih hargs hrest⟩
  | percent _ _ ih =>
      obtain ⟨hc, hrest⟩ := not_or.mp (mt List.mem_cons.mpr hnoNul)
      rw [text, List.mem_cons, not_or]
      exact ⟨hc, ih hargs (mt (List.mem_cons_of_mem _) hrest)⟩
  | string _ ih =>
      have hrest := mt (List.mem_cons_of_mem _) (mt (List.mem_cons_of_mem _) hnoNul)
      obtain ⟨arg, args, rfl, hk, hitems⟩ := (matches_cons rfl).mp hargs
      cases arg with
      | str s =>
          rw [text, List.mem_append, not_or]
          exact ⟨s.noNul, ih hitems hrest⟩
      | int32 v => cases hk
      | uint32 v => cases hk
      | int64 v => cases hk
      | uint64 v => cases hk
  | pointer _ _ ih =>
      have hrest := mt (List.mem_append_right _) (mt (List.mem_cons_of_mem _) hnoNul)
      obtain ⟨arg, args, rfl, -, hitems⟩ := (matches_cons rfl).mp hargs
      rw [text, List.mem_append, not_or]
      exact ⟨zero_notMem_numberText (by decide) (by decide) _,
        ih hitems (mt (List.mem_cons_of_mem _) hrest)⟩
  | @number fs _ _ _ _ _ _ ih =>
      have hrest := mt (List.mem_append_right _) (mt (List.mem_cons_of_mem _) hnoNul)
      obtain ⟨arg, args, rfl, -, hitems⟩ := (matches_cons rfl).mp hargs
      obtain ⟨hbase, hmax⟩ := numberBase_bounds fs
      rw [text, List.mem_append, not_or]
      exact ⟨zero_notMem_numberText hbase hmax _, ih hitems hrest⟩
  | skip _ _ _ _ _ ih => exact ih hargs (mt (List.mem_cons_of_mem _) hnoNul)

/-! ## Formats that follow each other -/

/-- Where a format ends: in the text or behind a complete item, behind a `%`, or behind
flags that more flags can follow. -/
inductive Ending
  | text
  | percent
  | flags
deriving DecidableEq

def Ending.next : Ending → UInt8 → Ending
  | .text, c => if c = ('%').toUInt8 then .percent else .text
  | .percent, c => if c ∈ numberFlags then .flags else .text
  | .flags, c =>
      if c ∈ numberFlags then .flags else if c = ('%').toUInt8 then .percent else .text

def ending (fmt : List UInt8) : Ending := fmt.foldl Ending.next .text

/-- The first format ends neither in a lone `%` nor in flags that the second one extends. -/
structure Joins (a b : List UInt8) : Prop where
  percent : ending a ≠ .percent
  flags : ending a = .flags → ∀ c ∈ b.head?, c ∉ flags

section Joins

variable {a b fs : List UInt8} {items items' : List Item} {c : UInt8} {e : Ending}

theorem foldl_flags (hfs : ∀ c ∈ fs, c ∈ numberFlags) (he : e = .flags ∨ fs ≠ [] ∧ e = .percent) :
    fs.foldl Ending.next e = .flags := by
  induction fs generalizing e with
  | nil =>
      obtain he | ⟨hne, -⟩ := he
      · exact he
      · exact absurd rfl hne
  | cons c fs ih =>
      obtain ⟨hc, hrest⟩ := List.forall_mem_cons.mp hfs
      have hnext : e.next c = .flags := by
        obtain rfl | ⟨-, rfl⟩ := he
        · exact if_pos hc
        · exact if_pos hc
      rw [List.foldl_cons, hnext]
      exact ih hrest (.inl rfl)

theorem next_percent : Ending.next .text ('%').toUInt8 = .percent := rfl

theorem ending_percent (hc : c ∉ numberFlags) (a : List UInt8) :
    ending (('%').toUInt8 :: c :: a) = ending a := by
  have hnext : Ending.next .percent c = .text := if_neg hc
  rw [ending, List.foldl_cons, next_percent, List.foldl_cons, hnext]
  rfl

theorem ending_char (hc : c ≠ ('%').toUInt8) (a : List UInt8) : ending (c :: a) = ending a := by
  rw [ending, List.foldl_cons]
  have hnext : Ending.next .text c = .text := if_neg hc
  rw [hnext]
  rfl

theorem ending_pointer (hfs : ∀ c ∈ fs, c ∈ numberFlags) (a : List UInt8) :
    ending (('%').toUInt8 :: (fs ++ ('p').toUInt8 :: a)) = ending a := by
  have hnext : Ending.next (fs.foldl Ending.next .percent) ('p').toUInt8 = .text := by
    cases fs with
    | nil => rfl
    | cons c fs =>
        rw [foldl_flags hfs (.inr ⟨List.cons_ne_nil c fs, rfl⟩)]
        rfl
  rw [ending, List.foldl_cons, next_percent, List.foldl_append, List.foldl_cons, hnext]
  rfl

theorem ending_number (hne : fs ≠ []) (hfs : ∀ c ∈ fs, c ∈ numberFlags)
    (hend : ∀ c ∈ a.head?, c ∉ flags) :
    ending (('%').toUInt8 :: (fs ++ a)) = if a = [] then .flags else ending a := by
  rw [ending, List.foldl_cons, next_percent, List.foldl_append, foldl_flags hfs (.inr ⟨hne, rfl⟩)]
  cases a with
  | nil => rfl
  | cons c a =>
      have hc : c ∉ numberFlags := fun hc => hend c rfl (mem_flags_iff.mpr (.inr hc))
      have hnext : Ending.next .flags c = Ending.next .text c := if_neg hc
      rw [List.foldl_cons, hnext]
      rfl

theorem joins_nil : Joins [] b := ⟨by decide, by intro h; cases h⟩

theorem Joins.congr {a' : List UInt8} (h : Joins a b) (he : ending a = ending a') : Joins a' b :=
  ⟨he ▸ h.percent, fun h' => h.flags (he.trans h')⟩

/-- The items of two formats that join are those of the one and then those of the other. -/
theorem Parses.append (ha : Parses a items) (hb : Parses b items') (hjoins : Joins a b) :
    Parses (a ++ b) (items ++ items') := by
  induction ha with
  | done => exact hb
  | char hc _ ih => exact .char hc (ih (hjoins.congr (ending_char hc _)))
  | @percent c fmt items hc _ ih =>
      refine .percent hc (ih (hjoins.congr (ending_percent ?_ _)))
      obtain rfl | rfl := hc
      · decide
      · decide
  | string _ ih => exact .string (ih (hjoins.congr (ending_percent (by decide) _)))
  | @pointer fs fmt items hfs _ ih =>
      rw [List.cons_append, List.append_assoc]
      exact .pointer hfs (ih (hjoins.congr (ending_pointer hfs fmt)))
  | @number fs fmt items hne hfs hend _ ih =>
      have hending := ending_number hne hfs hend
      rw [List.cons_append, List.append_assoc]
      cases fmt with
      | nil => exact .number hne hfs (hjoins.flags hending) (ih joins_nil)
      | cons c fmt => exact .number hne hfs hend (ih (hjoins.congr hending))
  | @skip c fmt items hpercent hspace hstring hflag _ ih =>
      refine .skip hpercent hspace hstring hflag (ih (hjoins.congr ?_))
      rw [ending_percent (fun hc => hflag (mem_flags_iff.mpr (.inr hc))), ending_char hpercent]
  | lone => exact absurd rfl hjoins.percent

end Joins

end FroggyOs
