import AffinityHeap.Options

namespace AffinityHeap.Options

/-- One item of a command line. -/
inductive Item where
  | reclaim
  | backend (value : String)
  | rounds (value : String)
  | seed (value : String)
  deriving DecidableEq, Repr

namespace Item

def arguments : Item → List String
  | reclaim => ["--reclaim"]
  | backend value => ["--backend", value]
  | rounds value => ["--rounds", value]
  | seed value => ["--seed", value]

def Accepted : Item → Prop
  | reclaim => True
  | backend value => ∃ kind, BackendKind.parse value = .ok kind
  | rounds value => ∃ n, Text.parseUnsigned value = .ok n
  | seed value => ∃ n, Text.parseUnsigned value = .ok n

def backend? : Item → Option BackendKind
  | backend value => (BackendKind.parse value).toOption
  | _ => none

def rounds? : Item → Option Nat
  | rounds value => (Text.parseUnsigned value).toOption
  | _ => none

def seed? : Item → Option Nat
  | seed value => (Text.parseUnsigned value).toOption
  | _ => none

variable {items items' : List Item} {rest rest' : List String}

theorem arguments_append_inj {i j : Item} (h : i.arguments ++ rest = j.arguments ++ rest') :
    i = j ∧ rest = rest' := by
  cases i <;> cases j <;> simp_all [arguments]

theorem arguments_ne_nil (i : Item) : i.arguments ++ rest ≠ [] := by
  cases i <;> exact List.cons_ne_nil _ _

/-- There is one way to read a command line: what stands behind an option that takes a value is
its value. -/
theorem flatMap_arguments_inj (h : items.flatMap arguments = items'.flatMap arguments) :
    items = items' := by
  induction items generalizing items' with
  | nil =>
      cases items' with
      | nil => rfl
      | cons j items' => exact absurd h.symm j.arguments_ne_nil
  | cons i items ih =>
      cases items' with
      | nil => exact absurd h i.arguments_ne_nil
      | cons j items' =>
          obtain ⟨rfl, hrest⟩ := arguments_append_inj h
          rw [ih hrest]

end Item

/-- What a command line of items asks for: of each option the last occurrence counts. -/
def after (o : Options) (items : List Item) : Options where
  backend := (items.filterMap Item.backend?).getLast?.or o.backend
  rounds := (items.filterMap Item.rounds?).getLast?.getD o.rounds
  seed := (items.filterMap Item.seed?).getLast?.getD o.seed
  reclaim := o.reclaim || decide (Item.reclaim ∈ items)

/-- Strings that are no item, and what is wrong with them whatever stands behind them. -/
inductive Offends : List String → ArgumentFault → Prop
  | backend {value : String} {fault : HeapError} :
      BackendKind.parse value = .error fault →
        Offends ["--backend", value] (.badBackend fault)
  | rounds {value : String} {fault : Text.NumberFault} :
      Text.parseUnsigned value = .error fault →
        Offends ["--rounds", value] (.badNumber "--rounds" fault)
  | seed {value : String} {fault : Text.NumberFault} :
      Text.parseUnsigned value = .error fault →
        Offends ["--seed", value] (.badNumber "--seed" fault)
  | help : Offends ["--help"] .help
  | shortHelp : Offends ["-h"] .help
  | unknown {argument : String} :
      argument ∉ ["--backend", "--rounds", "--seed", "--reclaim", "--help", "-h"] →
        Offends [argument] (.unknown argument)

/-- Options that take a value. -/
def valued : List String := ["--backend", "--rounds", "--seed"]

/-- Where no item can be read any more: in front of strings that are none, or of an option at the
end whose value is missing. -/
inductive Stops : List String → ArgumentFault → Prop
  | offends {bad : List String} {fault : ArgumentFault} (later : List String) :
      Offends bad fault → Stops (bad ++ later) fault
  | missing {option : String} : option ∈ valued → Stops [option] (.missingValue option)

variable {items : List Item} {bad rest : List String} {fault : ArgumentFault}

theorem after_nil (o : Options) : o.after [] = o := by simp [after]

theorem after_append (o : Options) (front behind : List Item) :
    o.after (front ++ behind) = (o.after front).after behind := by
  simp only [after, List.filterMap_append, List.getLast?_append, Option.or_assoc, Option.getD_or,
    List.mem_append, Bool.decide_or, Bool.or_assoc]

theorem parseOnto_arguments {i : Item} (hi : i.Accepted) (o : Options) (rest : List String) :
    parseOnto o (i.arguments ++ rest) = parseOnto (o.after [i]) rest := by
  cases i with
  | reclaim => simp [Item.arguments, parseOnto, after, Item.backend?, Item.rounds?, Item.seed?]
  | backend value =>
      obtain ⟨kind, hkind⟩ := hi
      simp [Item.arguments, parseOnto, readBackend, after, Item.backend?, Item.rounds?,
        Item.seed?, hkind, Except.toOption, bind, Except.bind]
  | rounds value =>
      obtain ⟨n, hn⟩ := hi
      simp [Item.arguments, parseOnto, readNumber, after, Item.backend?, Item.rounds?,
        Item.seed?, hn, Except.toOption, bind, Except.bind]
  | seed value =>
      obtain ⟨n, hn⟩ := hi
      simp [Item.arguments, parseOnto, readNumber, after, Item.backend?, Item.rounds?,
        Item.seed?, hn, Except.toOption, bind, Except.bind]

theorem parseOnto_items (h : ∀ i ∈ items, i.Accepted) (o : Options) (rest : List String) :
    parseOnto o (items.flatMap Item.arguments ++ rest) = parseOnto (o.after items) rest := by
  induction items generalizing o with
  | nil => rw [after_nil]; rfl
  | cons i items ih =>
      rw [List.flatMap_cons, List.append_assoc, parseOnto_arguments (h i (List.mem_cons_self ..)),
        ih fun j hj => h j (List.mem_cons_of_mem i hj), ← after_append, List.singleton_append]

theorem parseOnto_offends (h : Offends bad fault) (o : Options) (later : List String) :
    parseOnto o (bad ++ later) = .error fault := by
  cases h with
  | backend h => simp [parseOnto, readBackend, h, bind, Except.bind]
  | rounds h => simp [parseOnto, readNumber, h, bind, Except.bind]
  | seed h => simp [parseOnto, readNumber, h, bind, Except.bind]
  | help => simp [parseOnto]
  | shortHelp => simp [parseOnto]
  | unknown h =>
      simp only [List.mem_cons, List.not_mem_nil, or_false, not_or] at h
      simp [parseOnto, h]

theorem parseOnto_valued {option : String} (h : option ∈ valued) (o : Options) :
    parseOnto o [option] = .error (.missingValue option) := by
  simp only [valued, List.mem_cons, List.not_mem_nil, or_false] at h
  rcases h with rfl | rfl | rfl <;> rfl

theorem parseOnto_stops (h : Stops rest fault) (o : Options) :
    parseOnto o rest = .error fault := by
  cases h with
  | offends later h => exact parseOnto_offends h o later
  | missing h => exact parseOnto_valued h o

/-- As many items as there are at the front of a command line, and what stands behind them. -/
structure Reads (args : List String) (items : List Item) (rest : List String) : Prop where
  split : args = items.flatMap Item.arguments ++ rest
  accepted : ∀ i ∈ items, i.Accepted

theorem Reads.cons {i : Item} {args : List String} (hi : i.Accepted) (h : Reads args items rest) :
    Reads (i.arguments ++ args) (i :: items) rest := by
  refine ⟨by rw [h.split, List.flatMap_cons, List.append_assoc], fun j hj => ?_⟩
  rcases List.mem_cons.1 hj with rfl | hj
  · exact hi
  · exact h.accepted j hj

/-- A command line is read item by item up to its end or to what stops the reading. -/
def ReadsUp (args : List String) : Prop :=
  ∃ items rest, Reads args items rest ∧ (rest = [] ∨ ∃ fault, Stops rest fault)

theorem ReadsUp.stop (h : Stops rest fault) : ReadsUp rest :=
  ⟨[], rest, ⟨rfl, fun _ hi => nomatch hi⟩, .inr ⟨fault, h⟩⟩

theorem ReadsUp.item {i : Item} {args : List String} (hi : i.Accepted) (h : ReadsUp args) :
    ReadsUp (i.arguments ++ args) := by
  obtain ⟨items, rest, hreads, hrest⟩ := h
  exact ⟨i :: items, rest, hreads.cons hi, hrest⟩

theorem readsUp (args : List String) : ReadsUp args := by
  induction ({} : Options), args using parseOnto.induct with
  | case1 => exact ⟨[], [], ⟨rfl, fun _ hi => nomatch hi⟩, .inl rfl⟩
  | case2 o value rest ih =>
      cases h : BackendKind.parse value with
      | error fault => exact .stop (.offends rest (.backend h))
      | ok kind => exact .item (i := .backend value) ⟨kind, h⟩ (ih kind)
  | case3 o value rest ih =>
      cases h : Text.parseUnsigned value with
      | error fault => exact .stop (.offends rest (.rounds h))
      | ok n => exact .item (i := .rounds value) ⟨n, h⟩ (ih n)
  | case4 o value rest ih =>
      cases h : Text.parseUnsigned value with
      | error fault => exact .stop (.offends rest (.seed h))
      | ok n => exact .item (i := .seed value) ⟨n, h⟩ (ih n)
  | case5 o rest ih => exact .item (i := .reclaim) trivial ih
  | case6 => exact .stop (.missing (by decide))
  | case7 => exact .stop (.missing (by decide))
  | case8 => exact .stop (.missing (by decide))
  | case9 o later => exact .stop (.offends later .help)
  | case10 o later => exact .stop (.offends later .shortHelp)
  | case11 o argument later hbackend hrounds hseed hreclaim hbackend' hrounds' hseed' hhelp hshort =>
      -- With a value behind it or with nothing such an option was met in the cases above.
      have hother : ∀ option, (∀ value rest, argument = option → later = value :: rest → False) →
          (argument = option → later = [] → False) → argument ≠ option := by
        rintro option hmore hnone rfl
        cases later with
        | nil => exact hnone rfl rfl
        | cons value rest => exact hmore value rest rfl rfl
      have hoffends : Offends [argument] (.unknown argument) := by
        refine .unknown ?_
        simp only [List.mem_cons, List.not_mem_nil, or_false, not_or]
        exact ⟨hother _ hbackend hbackend', hother _ hrounds hrounds', hother _ hseed hseed',
          hreclaim, hhelp, hshort⟩
      exact .stop (.offends later hoffends)

theorem Reads.parse_eq {args : List String} (h : Reads args items rest) :
    parse args = parseOnto (after {} items) rest := by
  rw [parse, h.split, parseOnto_items h.accepted]

theorem parse_eq_ok_iff {args : List String} {o : Options} :
    parse args = .ok o ↔ ∃ items, Reads args items [] ∧ o = after {} items := by
  constructor
  · intro hok
    obtain ⟨items, rest, hreads, rfl | ⟨fault, hstops⟩⟩ := readsUp args
    · rw [hreads.parse_eq] at hok
      exact ⟨items, hreads, (Except.ok.inj hok).symm⟩
    · rw [hreads.parse_eq, parseOnto_stops hstops] at hok
      cases hok
  · rintro ⟨items, hreads, rfl⟩
    exact hreads.parse_eq

theorem parse_eq_error_iff {args : List String} :
    parse args = .error fault ↔ ∃ items rest, Reads args items rest ∧ Stops rest fault := by
  constructor
  · intro herror
    obtain ⟨items, rest, hreads, rfl | ⟨fault, hstops⟩⟩ := readsUp args
    · rw [hreads.parse_eq] at herror
      cases herror
    · rw [hreads.parse_eq, parseOnto_stops hstops] at herror
      obtain rfl := Except.error.inj herror
      exact ⟨items, rest, hreads, hstops⟩
  · rintro ⟨items, rest, hreads, hstops⟩
    rw [hreads.parse_eq, parseOnto_stops hstops]

/-- How a command line is read: as accepted items, the last one of each option counting, or up to
the first strings that are no item, with their fault and whatever stands behind them. -/
structure Grammar (args : List String) : Prop where
  accepted : ∀ o, parse args = .ok o ↔ ∃ items, Reads args items [] ∧ o = after {} items
  unique : ∀ items items' : List Item, args = items.flatMap Item.arguments →
    args = items'.flatMap Item.arguments → items = items'
  refused : ∀ fault, parse args = .error fault ↔
    ∃ items rest, Reads args items rest ∧ Stops rest fault
  settled : ∀ items bad later fault, Reads args items (bad ++ later) → Offends bad fault →
    ∀ later', parse (items.flatMap Item.arguments ++ (bad ++ later')) = .error fault

theorem parse_grammar (args : List String) : Grammar args := by
  constructor
  · intro o
    exact parse_eq_ok_iff
  · intro items items' h h'
    exact Item.flatMap_arguments_inj (h.symm.trans h')
  · intro fault
    exact parse_eq_error_iff
  · intro items bad later fault hreads hbad later'
    exact parse_eq_error_iff.2
      ⟨items, bad ++ later', ⟨rfl, hreads.accepted⟩, .offends later' hbad⟩

end AffinityHeap.Options
