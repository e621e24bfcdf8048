namespace AffinityHeap.Toml

/-- How a table came to be: under a header of its own, on the way to another header, through
dotted keys, or in braces. -/
inductive TableForm where
  | header
  | implied
  | dotted
  | inline
  deriving DecidableEq, Repr

inductive Value where
  | string (text : String)
  | integer (n : Int)
  | float
  | boolean (b : Bool)
  | datetime
  | array (items : List Value)
  | table (form : TableForm) (entries : List (String × Value))
  | tables (elements : List (List (String × Value)))

abbrev Entries : Type := List (String × Value)

structure Table where
  form : TableForm
  entries : Entries

namespace Entries

def find? (key : String) (entries : Entries) : Option Value :=
  (List.find? (fun x => x.1 == key) entries).map (·.2)

def put (key : String) (v : Value) : Entries → Entries
  | [] => [(key, v)]
  | (k, w) :: rest => if k = key then (k, v) :: rest else (k, w) :: put key v rest

end Entries

namespace Table

def root : Table := ⟨.header, []⟩

def toValue (t : Table) : Value := .table t.form t.entries

/-- Changes the table at the end of a path. Headers pass through every table that is not closed;
dotted keys only through tables that have no header. An array of tables stands for its last
element. -/
def alterAt (dotted : Bool) (f : Table → Option Table) : List String → Table → Option Table
  | [], t => f t
  | key :: path, t =>
      match Entries.find? key t.entries with
      | none => do
          let child ← alterAt dotted f path ⟨if dotted then .dotted else .implied, []⟩
          return { t with entries := Entries.put key child.toValue t.entries }
      | some (.table form entries) =>
          if form = .inline ∨ (dotted ∧ form = .header) then none
          else do
            let child ← alterAt dotted f path ⟨form, entries⟩
            return { t with entries := Entries.put key child.toValue t.entries }
      | some (.tables elements) =>
          match elements.getLast? with
          | none => none
          | some last => do
              let child ← alterAt dotted f path ⟨.header, last⟩
              let elements := elements.dropLast ++ [child.entries]
              return { t with entries := Entries.put key (.tables elements) t.entries }
      | some _ => none

/-- A key may not be written twice, and dotted keys add only to tables made by dotted keys. -/
def insertAt (key : List String) (v : Value) (t : Table) : Option Table :=
  match key.getLast? with
  | none => none
  | some last =>
      let path := key.dropLast
      alterAt true
        (fun t =>
          if (t.form == .dotted) == path.isEmpty || (Entries.find? last t.entries).isSome then none
          else some { t with entries := t.entries ++ [(last, v)] })
        path t

def openTable (last : String) (t : Table) : Option Table :=
  match Entries.find? last t.entries with
  | none => some { t with entries := Entries.put last (.table .header []) t.entries }
  | some (.table .implied entries) =>
      some { t with entries := Entries.put last (.table .header entries) t.entries }
  | some _ => none

def appendTable (last : String) (t : Table) : Option Table :=
  match Entries.find? last t.entries with
  | none => some { t with entries := Entries.put last (.tables [[]]) t.entries }
  | some (.tables elements) =>
      some { t with entries := Entries.put last (.tables (elements ++ [[]])) t.entries }
  | some _ => none

def enter (f : String → Table → Option Table) (path : List String) (t : Table) : Option Table :=
  match path.getLast? with
  | none => none
  | some last => alterAt false (f last) path.dropLast t

end Table

end AffinityHeap.Toml
