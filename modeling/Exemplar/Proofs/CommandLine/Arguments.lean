import Exemplar.CommandLine.Run
import Mathlib.Data.List.Forall2
import Mathlib.Data.List.Pairwise
import Mathlib.Data.List.Perm.Basic
import Mathlib.Data.List.ReduceOption

/-!
# Arguments in any order

The arguments ask for a pattern and for some options, each of which settles something else. They may
be written in any order, a number apart from the name of its option or joined to it, and the pattern
among the options or behind all of them. Whichever way is taken, the program does the same job.

Every item of a request changes the settings in a place of its own, so reading the items one after
the other comes to the same settings in every order.

## Main definitions

* `Item`: a pattern, a switch, or a number, as one or two arguments ask for it
* `Item.Spells`: the arguments that an item is written as
* `Request`: a pattern and options, at most one for each thing to be settled
* `Request.Writes`: the argument lists that ask for a request

## Main results

* `Item.read_append`: the arguments of an item change the settings as the item says
* `Settings.read_flatten`: and so do the arguments of many
* `Request.ofArguments_of_writes`: all argument lists for a request lead to the same job
-/

namespace Exemplar.CommandLine

/-! ## Reading an argument -/

namespace Settings

variable {st : Settings} {argument name value : String} {rest : List String}

theorem read_switch {set : Settings → Settings} {value? : Option String}
    (hname : nameAndValue argument = (name, value?))
    (hflag : Flag.ofName? name = some (.switch set)) :
    st.read (argument :: rest) = (set st).read rest := by
  rw [read.eq_def]
  simp only [hname, hflag]

/-- A number in the next argument, which is taken whatever it looks like. -/
theorem read_apart {set : ℕ → Settings → Settings} {n : ℕ}
    (hname : nameAndValue argument = (name, none))
    (hflag : Flag.ofName? name = some (.number set)) (hvalue : number? value = some n) :
    st.read (argument :: value :: rest) = (set n st).read rest := by
  rw [read.eq_def]
  simp only [hname, hflag, withNumber, hvalue]
  rfl

/-- A number in the same argument. -/
theorem read_joined {set : ℕ → Settings → Settings} {n : ℕ}
    (hname : nameAndValue argument = (name, some value))
    (hflag : Flag.ofName? name = some (.number set)) (hvalue : number? value = some n) :
    st.read (argument :: rest) = (set n st).read rest := by
  rw [read.eq_def]
  simp only [hname, hflag, withNumber, hvalue]
  rfl

/-- A pattern, while there is none. -/
theorem read_pattern (hname : nameAndValue argument = (argument, none))
    (hflag : Flag.ofName? argument = none) (hlooks : looksLikeOption argument = false)
    (hfree : st.pattern = none) :
    st.read (argument :: rest) = { st with pattern := some argument }.read rest := by
  rw [read.eq_def]
  simp only [hname, hflag, hlooks, withPattern, hfree]
  rfl

/-- The pattern behind two dashes, while there is none. -/
theorem read_behind (hfree : st.pattern = none) (pattern : String) :
    st.read ["--", pattern] = .ok { st with pattern := some pattern } := by
  have hname : nameAndValue "--" = ("--", none) := rfl
  have hflag : Flag.ofName? "--" = some .patternFollows := rfl
  rw [read.eq_def]
  simp only [hname, hflag, withPattern, hfree]
  rfl

end Settings

/-! ## Items -/

/-- What an option with a number settles. -/
inductive Quantity where
  | count
  | least
  | most
  | seed
deriving DecidableEq

namespace Quantity

/-- The long name of the option. -/
def name : Quantity → String
  | count => "--count"
  | least => "--min"
  | most => "--max"
  | seed => "--seed"

/-- All names of the option. -/
def names : Quantity → List String
  | count => ["-n", "--count"]
  | q => [q.name]

theorem name_mem_names (q : Quantity) : q.name ∈ q.names := by
  cases q <;> decide

/-- The settings with the number. -/
def set : Quantity → ℕ → Settings → Settings
  | count, n, st => { st with count := n }
  | least, n, st => { st with least := n }
  | most, n, st => { st with most := n }
  | seed, n, st => { st with seed := some n }

end Quantity

/-- What an option without a value settles. -/
inductive Switch where
  | whole
  | mismatchesOnly
  | color (wanted : Bool)
deriving DecidableEq

namespace Switch

/-- The name of the option. -/
def name : Switch → String
  | whole => "--exact"
  | mismatchesOnly => "--not-matching"
  | color true => "--color"
  | color false => "--no-color"

/-- The settings with the switch. -/
def set : Switch → Settings → Settings
  | whole, st => { st with whole := true }
  | mismatchesOnly, st => { st with mismatchesOnly := true }
  | color wanted, st => { st with color := wanted }

end Switch

/-- What one argument, or an option with its value, asks for. -/
inductive Item where
  | pattern (text : String)
  | switch (s : Switch)
  | number (q : Quantity) (n : ℕ)
deriving DecidableEq

/-- What an item settles. -/
inductive Subject where
  | pattern
  | count
  | least
  | most
  | seed
  | whole
  | mismatchesOnly
  | color
deriving DecidableEq

namespace Item

/-- What the item settles. -/
def subject : Item → Subject
  | pattern _ => .pattern
  | switch .whole => .whole
  | switch .mismatchesOnly => .mismatchesOnly
  | switch (.color _) => .color
  | number .count _ => .count
  | number .least _ => .least
  | number .most _ => .most
  | number .seed _ => .seed

/-- The items settle different things. -/
def Apart (x y : Item) : Prop := x.subject ≠ y.subject

instance : Std.Symm Apart := ⟨fun _ _ h => h.symm⟩

/-- The settings with what the item asks for. -/
def set (st : Settings) : Item → Settings
  | pattern text => { st with pattern := some text }
  | switch s => s.set st
  | number q n => q.set n st

/-- The arguments that an item is written as. A pattern among the options has no dash in front; a
number follows its option, or a long name and an equals sign. -/
inductive Spells : Item → List String → Prop where
  | pattern {text : String} : text.toList.head? ≠ some '-' → Spells (.pattern text) [text]
  | switch (s : Switch) : Spells (.switch s) [s.name]
  | apart {q : Quantity} {name value : String} {n : ℕ} : name ∈ q.names →
    number? value = some n → Spells (.number q n) [name, value]
  | joined (q : Quantity) {value : String} {n : ℕ} : number? value = some n →
    Spells (.number q n) [q.name ++ "=" ++ value]

/-! ## Reading an item -/

theorem nameAndValue_of_head {text : String} (h : text.toList.head? ≠ some '-') :
    nameAndValue text = (text, none) := by
  unfold nameAndValue
  split
  next heq => simp [heq] at h
  next => rfl

theorem ofName?_of_head {text : String} (h : text.toList.head? ≠ some '-') :
    Flag.ofName? text = none := by
  unfold Flag.ofName?
  split <;> first | rfl | exact absurd rfl h

theorem looksLikeOption_of_head {text : String} (h : text.toList.head? ≠ some '-') :
    looksLikeOption text = false := by
  unfold looksLikeOption
  split
  next heq => simp [heq] at h
  next => rfl

/-- A long name has no equals sign, so the value begins behind the first one. -/
theorem nameAndValue_joined (q : Quantity) (value : String) :
    nameAndValue (q.name ++ "=" ++ value) = (q.name, some value) := by
  cases q <;> simp [nameAndValue, Quantity.name]

theorem ofName?_switch (s : Switch) : Flag.ofName? s.name = some (.switch s.set) := by
  cases s with
  | whole | mismatchesOnly => rfl
  | color wanted => cases wanted <;> rfl

theorem nameAndValue_switch (s : Switch) : nameAndValue s.name = (s.name, none) := by
  cases s with
  | whole | mismatchesOnly => rfl
  | color wanted => cases wanted <;> rfl

/-- Every name of an option with a number is known, and none is taken apart. -/
theorem ofName?_quantity (q : Quantity) : ∀ name ∈ q.names,
    Flag.ofName? name = some (.number q.set) ∧ nameAndValue name = (name, none) := by
  have hlong : ∀ name ∈ [q.name],
      Flag.ofName? name = some (.number q.set) ∧ nameAndValue name = (name, none) := by
    rw [List.forall_mem_singleton]
    cases q <;> exact ⟨rfl, rfl⟩
  cases q with
  | count => exact List.forall_mem_cons.mpr ⟨⟨rfl, rfl⟩, hlong⟩
  | least | most | seed => exact hlong

/-- The arguments of an item change the settings as the item says, whatever follows them. Only a
pattern takes something for granted, that there is none yet. -/
theorem read_append {item : Item} {piece : List String} (h : item.Spells piece) {st : Settings}
    (hfree : item.subject = .pattern → st.pattern = none) (rest : List String) :
    st.read (piece ++ rest) = (item.set st).read rest := by
  cases h with
  | pattern htext =>
    exact Settings.read_pattern (nameAndValue_of_head htext) (ofName?_of_head htext)
      (looksLikeOption_of_head htext) (hfree rfl)
  | switch s => exact Settings.read_switch (nameAndValue_switch s) (ofName?_switch s)
  | apart hname hvalue =>
    obtain ⟨hflag, hplain⟩ := ofName?_quantity _ _ hname
    exact Settings.read_apart hplain hflag hvalue
  | joined q hvalue =>
    obtain ⟨hflag, -⟩ := ofName?_quantity q q.name q.name_mem_names
    exact Settings.read_joined (nameAndValue_joined q _) hflag hvalue

/-! ## Reading many items -/

/-- An item that is no pattern leaves the pattern alone. -/
theorem pattern_set {item : Item} (h : item.subject ≠ .pattern) (st : Settings) :
    (item.set st).pattern = st.pattern := by
  cases item with
  | pattern text => exact absurd rfl h
  | switch s => cases s <;> rfl
  | number q n => cases q <;> rfl

theorem pattern_foldl {items : List Item} (h : ∀ item ∈ items, item.subject ≠ .pattern)
    {st : Settings} : (items.foldl set st).pattern = st.pattern := by
  induction items generalizing st with
  | nil => rfl
  | cons item items ih =>
    rw [List.forall_mem_cons] at h
    rw [List.foldl_cons, ih h.2, pattern_set h.1]

/-- Items that settle different things do not get in each other's way: each writes one field, and
two different fields can be written in either order. -/
theorem set_comm {x y : Item} (h : x.Apart y) (st : Settings) :
    y.set (x.set st) = x.set (y.set st) := by
  rcases x with _ | (_ | _ | _) | ⟨_ | _ | _ | _, _⟩ <;>
    rcases y with _ | (_ | _ | _) | ⟨_ | _ | _ | _, _⟩ <;>
      first | rfl | exact absurd rfl h

end Item

/-- The items are read one after the other. Where a pattern is still to come, none of the items read
so far was one. -/
theorem Settings.read_flatten {items : List Item} {pieces : List (List String)}
    (h : List.Forall₂ Item.Spells items pieces)
    (hdistinct : items.Pairwise Item.Apart) (st : Settings)
    (hfree : ∀ item ∈ items, item.subject = .pattern → st.pattern = none) (rest : List String) :
    st.read (pieces.flatten ++ rest) = (items.foldl Item.set st).read rest := by
  induction h generalizing st with
  | nil => rfl
  | @cons item piece items pieces hitem _ ih =>
    rw [List.pairwise_cons] at hdistinct
    rw [List.forall_mem_cons] at hfree
    rw [List.flatten_cons, List.append_assoc, Item.read_append hitem hfree.1, List.foldl_cons]
    apply ih hdistinct.2 _
    intro later hlater hpattern
    rw [Item.pattern_set (hpattern ▸ hdistinct.1 later hlater)]
    exact hfree.2 later hlater hpattern

/-! ## Requests -/

/-- A pattern and options, at most one for each thing to be settled. -/
structure Request where
  pattern : String
  count : Option ℕ
  least : Option ℕ
  most : Option ℕ
  seed : Option ℕ
  whole : Bool
  mismatchesOnly : Bool
  color : Option Bool
  ordered : least.getD 0 ≤ most.getD unbounded

namespace Request

/-- A place for each option, empty where the option is missing. -/
def slots (r : Request) : List (Option Item) := [
  r.count.map (.number .count), r.least.map (.number .least), r.most.map (.number .most),
  r.seed.map (.number .seed), if r.whole then some (.switch .whole) else none,
  if r.mismatchesOnly then some (.switch .mismatchesOnly) else none,
  r.color.map fun wanted => .switch (.color wanted)]

/-- The options that are there. -/
def options (r : Request) : List Item := r.slots.reduceOption

/-- The pattern and the options. -/
def items (r : Request) : List Item := .pattern r.pattern :: r.options

/-- The argument lists that ask for the request: its items in any order, or the options in any order
and the pattern behind two dashes. -/
inductive Writes (r : Request) : List String → Prop where
  | among {items : List Item} {pieces : List (List String)} : items.Perm r.items →
    List.Forall₂ Item.Spells items pieces → Writes r pieces.flatten
  | behind {items : List Item} {pieces : List (List String)} : items.Perm r.options →
    List.Forall₂ Item.Spells items pieces → Writes r (pieces.flatten ++ ["--", r.pattern])

/-- The lengths that are asked for. -/
def lengths (r : Request) : Extent where
  least := min (r.least.getD 0) unbounded
  most := min (r.most.getD unbounded) unbounded
  least_le_most := by
    have := r.ordered
    omega
  most_le_unbounded := Nat.min_le_right _ _

/-- The job that is asked for. -/
def job (terminal : Bool) (r : Request) : Job where
  pattern := r.pattern
  count := r.count.getD 5
  lengths := r.lengths
  seed := r.seed
  whole := r.whole
  mismatchesOnly := r.mismatchesOnly
  color := r.color.getD terminal

/-! ## The job of a request -/

variable {r : Request} {items : List Item} {args args' : List String}

/-- What is settled by options in places of their own is a part of what the places are for. -/
theorem sublist_of_slots {slots : List (Option Item)} {subjects : List Subject}
    (h : List.Forall₂ (fun slot x => ∀ item ∈ slot, item.subject = x) slots subjects) :
    (slots.reduceOption.map Item.subject).Sublist subjects := by
  induction h with
  | nil => exact List.Sublist.refl _
  | @cons slot x _ _ hslot _ ih =>
    cases slot with
    | none => exact ih.cons x
    | some item =>
      obtain rfl : item.subject = x := hslot item rfl
      exact ih.cons_cons _

theorem subject_of_map {α : Type} {o : Option α} {f : α → Item} {x : Subject}
    (h : ∀ a, (f a).subject = x) : ∀ item ∈ o.map f, item.subject = x := by
  intro item hitem
  obtain ⟨a, -, rfl⟩ := Option.map_eq_some_iff.mp hitem
  exact h a

theorem subject_of_ite {b : Bool} {s : Switch} :
    ∀ item ∈ (if b then some (Item.switch s) else none),
      item.subject = (Item.switch s).subject := by
  intro item hitem
  obtain ⟨-, hs⟩ := Option.ite_none_right_eq_some.mp hitem
  rw [Option.some.inj hs]

/-- No two items settle the same. -/
theorem apart_items (r : Request) : r.items.Pairwise Item.Apart := by
  have hslots : List.Forall₂ (fun slot x => ∀ item ∈ slot, item.subject = x) r.slots
      [.count, .least, .most, .seed, .whole, .mismatchesOnly, .color] := by
    exact .cons (subject_of_map fun _ => rfl) <| .cons (subject_of_map fun _ => rfl) <|
      .cons (subject_of_map fun _ => rfl) <| .cons (subject_of_map fun _ => rfl) <|
      .cons subject_of_ite <| .cons subject_of_ite <| .cons (subject_of_map fun _ => rfl) .nil
  have hpart : (r.items.map Item.subject).Sublist
      [.pattern, .count, .least, .most, .seed, .whole, .mismatchesOnly, .color] :=
    (sublist_of_slots hslots).cons_cons Subject.pattern
  have hdistinct := List.pairwise_map.mp (hpart.nodup (by decide))
  exact hdistinct

/-- The settings that are asked for. -/
def settings (terminal : Bool) (r : Request) : Settings where
  pattern := some r.pattern
  count := r.count.getD 5
  least := r.least.getD 0
  most := r.most.getD unbounded
  seed := r.seed
  whole := r.whole
  mismatchesOnly := r.mismatchesOnly
  color := r.color.getD terminal

/-- Read in the order of the request, the items write the fields one by one. -/
theorem foldl_items (terminal : Bool) (r : Request) :
    r.items.foldl Item.set { color := terminal } = r.settings terminal := by
  rcases r with ⟨pattern, _ | count, _ | least, _ | most, _ | seed, _ | _, _ | _, _ | color, _⟩ <;>
    rfl

/-- The order of the items does not matter. -/
theorem foldl_of_perm (h : items.Perm r.items) (terminal : Bool) :
    items.foldl Item.set { color := terminal } = r.settings terminal := by
  rw [← foldl_items]
  apply h.foldl_eq'
  intro x hx y hy st
  by_cases hxy : x = y
  · rw [hxy]
  · exact Item.set_comm (r.apart_items.forall (h.mem_iff.mp hx) (h.mem_iff.mp hy) hxy) st

/-- Whichever way a request is written, its settings are read. A pattern behind the others is one
more item, read last. -/
theorem ofArguments_settings (h : r.Writes args) (terminal : Bool) :
    Settings.ofArguments terminal args = .ok (r.settings terminal) := by
  rw [Settings.ofArguments]
  cases h with
  | among hperm hspells =>
    have hdistinct := r.apart_items.perm hperm.symm (Std.Symm.symm _ _)
    have hread := Settings.read_flatten hspells hdistinct { color := terminal }
      (fun _ _ _ => rfl) []
    rw [List.append_nil, foldl_of_perm hperm, Settings.read] at hread
    exact hread
  | @behind items pieces hperm hspells =>
    obtain ⟨hoption, hoptions⟩ := List.pairwise_cons.mp r.apart_items
    have hdistinct := hoptions.perm hperm.symm (Std.Symm.symm _ _)
    rw [Settings.read_flatten hspells hdistinct _ fun _ _ _ => rfl]
    have hlast : (items ++ [Item.pattern r.pattern]).Perm r.items :=
      (List.perm_append_singleton _ _).trans (hperm.cons _)
    rw [← foldl_of_perm hlast, List.foldl_append]
    apply Settings.read_behind
    exact Item.pattern_foldl fun item hitem => (hoption item (hperm.mem_iff.mp hitem)).symm

/-- Two lists of arguments for the same request, in whatever order, with numbers apart from their
options or joined to them, and with the pattern among the options or behind them, lead to the job of
the request, and to runs with the same outcome. -/
theorem ofArguments_of_writes (h : r.Writes args) (h' : r.Writes args') (terminal : Bool) :
    Job.ofArguments terminal args = .ok (r.job terminal) ∧
    Job.ofArguments terminal args' = .ok (r.job terminal) ∧
    ∀ (traced : Bool) (entropy : ℕ) (timing : Timing),
      run terminal traced entropy timing args = run terminal traced entropy timing args' := by
  have hjob : ∀ {args : List String}, r.Writes args →
      Job.ofArguments terminal args = .ok (r.job terminal) := by
    intro args h
    have hends : Extent.ofEnds (r.least.getD 0) (r.most.getD unbounded) = .ok r.lengths :=
      dif_pos r.ordered
    rw [Job.ofArguments, ofArguments_settings h]
    simp only [bind, Except.bind, settings, hends]
    rfl
  refine ⟨hjob h, hjob h', fun traced entropy timing => ?_⟩
  rw [run, run, hjob h, hjob h']

/-- The pattern in front and the options behind it, or the other way around with two dashes. -/
theorem ofArguments_of_writes_digits :
    let r : Request := ⟨"[0-9]+", some 3, some 2, none, none, true, false, some false, by decide⟩
    let args := ["[0-9]+", "-n", "3", "--min=2", "--exact", "--no-color"]
    let args' := ["--no-color", "--min", "+2", "--exact", "--count=3", "--", "[0-9]+"]
    r.Writes args ∧ r.Writes args' ∧ Job.ofArguments true args = .ok (r.job true) ∧
      Job.ofArguments true args' = .ok (r.job true) ∧
      ∀ (entropy : ℕ) (timing : Timing),
        run true false entropy timing args = run true false entropy timing args' := by
  intro r args args'
  have hthree : number? "3" = some 3 := by decide
  have htwo : number? "2" = some 2 := by decide
  have hcount : Item.Spells (.number .count 3) ["-n", "3"] := .apart (by decide) hthree
  have hcount' : Item.Spells (.number .count 3) ["--count=3"] := .joined .count hthree
  have hleast : Item.Spells (.number .least 2) ["--min=2"] := .joined .least htwo
  have hleast' : Item.Spells (.number .least 2) ["--min", "+2"] := .apart (by decide) (by decide)
  have hpattern : Item.Spells (.pattern "[0-9]+") ["[0-9]+"] := .pattern (by decide)
  have horder : [Item.pattern "[0-9]+", .number .count 3, .number .least 2, .switch .whole,
      .switch (.color false)].Perm r.items := by decide
  have horder' : [Item.switch (.color false), .number .least 2, .switch .whole,
      .number .count 3].Perm r.options := by decide
  have hwrites : r.Writes args := .among horder <| .cons hpattern <| .cons hcount <|
    .cons hleast <| .cons (.switch .whole) <| .cons (.switch (.color false)) .nil
  have hwrites' : r.Writes args' := .behind horder' <| .cons (.switch (.color false)) <|
    .cons hleast' <| .cons (.switch .whole) <| .cons hcount' .nil
  obtain ⟨hjob, hjob', hrun⟩ := ofArguments_of_writes hwrites hwrites' true
  exact ⟨hwrites, hwrites', hjob, hjob', fun entropy timing => hrun false entropy timing⟩

end Request

end Exemplar.CommandLine
