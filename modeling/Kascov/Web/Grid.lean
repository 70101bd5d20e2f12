import Kascov.Lib.InsertionMap
import Kascov.Pages.Keyed
import Kascov.Web.Hex

/-!
# The grid of the explorer

The browser holds a window of the covenant list and an index over it: the rows by activity, the
rows by id, and a name for each, which gets a suffix where two coins share it.  The index is
built once from the first page.  Each further page is merged into it in place.

An entry of the index is an object that the two views share, so the model keeps the objects in
the order of their creation and lets the views refer to them.
-/

namespace Kascov

/-! ## Names -/

def adjectives : List String :=
  ["brave", "quick", "silent", "gentle", "bold", "clever", "curious", "dizzy",
    "eager", "fierce", "glad", "happy", "humble", "jolly", "keen", "lively",
    "lucky", "mellow", "nimble", "noble", "patient", "playful", "proud", "quiet",
    "rapid", "restless", "shy", "sleepy", "sly", "snappy", "steady", "stubborn",
    "sunny", "swift", "tidy", "tiny", "vivid", "wandering", "wise", "zesty"]

def colors : List String :=
  ["teal", "amber", "coral", "indigo", "jade", "crimson",
    "cobalt", "olive", "violet", "copper", "pearl", "slate"]

def animals : List String :=
  ["otter", "lynx", "crane", "fox", "owl", "badger", "heron", "marmot",
    "falcon", "tortoise", "hare", "raven", "seal", "ibis", "moth", "newt",
    "panda", "quail", "robin", "stoat", "tapir", "urchin", "vole", "wren",
    "yak", "zebra", "gecko", "dolphin", "ferret", "magpie", "hedgehog", "jackal",
    "kiwi", "lemur", "mole", "narwhal", "osprey", "puffin", "squid", "toad"]

/-- `idByte`, on the id of a covenant. -/
def idByte (id : CovenantId) (i : Nat) : Nat := id.bytes.toNat / 256 ^ (31 - i) % 256

/-- The id as the worker writes it: 64 digits. -/
def idText (id : CovenantId) : Text :=
  toHex ((List.range 32).map fun i ↦ UInt8.ofNat (idByte id i))

/-- A word of a list, by two bytes of the id. -/
def wordOf (words : List String) (id : CovenantId) (i : Nat) : Text :=
  (words.getD ((idByte id i * 256 + idByte id (i + 1)) % words.length) "").toList

/-- `friendlyName`. -/
def friendlyName (id : CovenantId) : Text :=
  wordOf adjectives id 0 ++ '-' :: wordOf colors id 2 ++ '-' :: wordOf animals id 4

/-- The name of a coin that shares its friendly name. -/
def suffixedName (id : CovenantId) : Text := friendlyName id ++ '-' :: (idText id).take 4

/-! ## Rows -/

/-- What the index reads of a row of `build_grid_snapshot`. -/
structure GridRow where
  covenantId : CovenantId
  status : String
  genesisDaa : Option Nat
  eventCount : Int
  lastActivityDaa : Nat
  bornValue : Nat
deriving DecidableEq

/-- The JSON of a summary in `build_grid_snapshot`. -/
def gridRow (c : CovenantSummary) : GridRow where
  covenantId := c.covenantId
  status := if 0 < c.liveUtxos then "active" else "burned"
  genesisDaa := c.genesisDaa
  eventCount := c.eventCount
  lastActivityDaa := c.lastActivityDaa
  bornValue := c.bornValue

/-- `isAlive`. -/
def isAlive (c : GridRow) : Bool := c.status = "active"

/-- The anchor of `makeAnchor`, and when the snapshot was made. -/
structure GridClock where
  daa : Int
  ms : Int
  generatedAtMs : Int
deriving DecidableEq

/-- `MS_PER_DAA`. -/
def msPerDaa : Int := 100

def daaToMs (clock : GridClock) (daa : Nat) : Int := clock.ms - (clock.daa - daa) * msPerDaa

structure IndexEntry where
  c : GridRow
  name : Text
  moves : Int
  bornMs : Int
  lastMs : Int
  birthValue : Nat
  blob : Text
deriving DecidableEq

/-- `(name + ' ' + id).toLowerCase()`. -/
def blobOf (name : Text) (id : CovenantId) : Text := (name ++ ' ' :: idText id).map Char.toLower

def indexEntry (clock : GridClock) (c : GridRow) (name : Text) : IndexEntry :=
  let bornMs := match c.genesisDaa with
    | some daa => daaToMs clock daa
    | none =>
        if c.lastActivityDaa ≠ 0 then daaToMs clock c.lastActivityDaa else clock.generatedAtMs
  { c
    name
    moves := max 0 (c.eventCount - (if c.genesisDaa.isSome then 1 else 0) -
      (if isAlive c then 0 else 1))
    bornMs
    lastMs := if c.lastActivityDaa ≠ 0 then daaToMs clock c.lastActivityDaa else bornMs
    birthValue := c.bornValue
    blob := blobOf name c.covenantId }

/-- `prev.name = …; prev.blob = …`. -/
def IndexEntry.rename (name : Text) (e : IndexEntry) : IndexEntry :=
  { e with name, blob := blobOf name e.c.covenantId }

/-! ## The index -/

/-- The objects, and the views that refer to them. -/
structure GridIndex where
  entries : List IndexEntry
  covs : List Nat
  byId : InsertionMap CovenantId Nat
  nameCounts : InsertionMap Text Nat

/-- The activity of the row of an entry. -/
def activityAt (entries : List IndexEntry) (i : Nat) : Nat :=
  (entries[i]?.map (·.c.lastActivityDaa)).getD 0

/-- The comparator of the sorts: the latest activity first. -/
def LaterFirst (entries : List IndexEntry) (i j : Nat) : Prop :=
  activityAt entries j ≤ activityAt entries i

instance (entries : List IndexEntry) : DecidableRel (LaterFirst entries) := fun i j ↦
  inferInstanceAs (Decidable (activityAt entries j ≤ activityAt entries i))

/-- `nameCounts.set(n, (nameCounts.get(n) || 0) + 1)`. -/
def countName (counts : InsertionMap Text Nat) (c : GridRow) : InsertionMap Text Nat :=
  let n := friendlyName c.covenantId
  counts.set n ((counts.get? n).getD 0 + 1)

def countNames (rows : List GridRow) : InsertionMap Text Nat := rows.foldl countName {}

/-- `byId.set(e.c.covenant_id, e)`. -/
def putId (entries : List IndexEntry) (byId : InsertionMap CovenantId Nat) (i : Nat) :
    InsertionMap CovenantId Nat :=
  match entries[i]? with
  | some e => byId.set e.c.covenantId i
  | none => byId

/-- `buildIndex`. -/
def buildIndex (clock : GridClock) (rows : List GridRow) : GridIndex :=
  let nameCounts := countNames rows
  let entries := rows.map fun c ↦
    let name := friendlyName c.covenantId
    indexEntry clock c
      (if 1 < (nameCounts.get? name).getD 0 then suffixedName c.covenantId else name)
  let covs := (List.range entries.length).insertionSort (LaterFirst entries)
  { entries, covs, byId := covs.foldl (putId entries) {}, nameCounts }

/-- One row of the loop of `appendToIndex`. -/
def appendRow (clock : GridClock) (index : GridIndex) (c : GridRow) : GridIndex :=
  let base := friendlyName c.covenantId
  let count := (index.nameCounts.get? base).getD 0 + 1
  let nameCounts := index.nameCounts.set base count
  let entries :=
    if count = 2 then
      match index.covs.find? fun i ↦ (index.entries[i]?).any (·.name = base) with
      | some i => index.entries.modify i fun prev ↦ prev.rename (suffixedName prev.c.covenantId)
      | none => index.entries
    else index.entries
  let entry := indexEntry clock c (if 1 < count then suffixedName c.covenantId else base)
  { entries := entries ++ [entry]
    covs := index.covs ++ [entries.length]
    byId := index.byId.set c.covenantId entries.length
    nameCounts }

/-- `appendToIndex`. -/
def appendToIndex (clock : GridClock) (index : GridIndex) (newRows : List GridRow) : GridIndex :=
  let index := newRows.foldl (appendRow clock) index
  let at' := index.covs.length - newRows.length
  if 0 < at' ∧ newRows ≠ [] ∧ activityAt index.entries (index.covs.getD (at' - 1) 0) <
      activityAt index.entries (index.covs.getD at' 0) then
    { index with covs := index.covs.insertionSort (LaterFirst index.entries) }
  else index

/-! ## Loading -/

/-- The worker's database at the time of a request: its key, and DAA scores that are exact as
numbers of the browser. -/
structure ServedStore where
  store : Store
  keys : (store.covenants.map (·.covenantId)).Nodup
  activity : ∀ c ∈ store.covenants, c.lastActivityDaa < 2 ^ 53

/-- `GRID_PAGE`. -/
def gridPageSize : Nat := 2000

/-- An answer to `fetchGridPage`. -/
structure GridAnswer where
  clock : GridClock
  covenants : List GridRow
  next : Option (Nat × CovenantId)

/-- The worker's answer to `?after_daa=…&after_id=…&limit=…`. -/
def fetchGridPage (served : ServedStore) (clock : GridClock) (after : Option (Nat × CovenantId))
    (limit : Nat) : GridAnswer :=
  let (rows, next) := gridPage served.store after (clamp limit 1 maxPage)
  ⟨clock, rows.map gridRow, next.bind id⟩

/-- What `state.cache` has of a network. -/
structure GridEntry where
  clock : GridClock
  covenants : List GridRow
  index : GridIndex
  next : Option (Nat × CovenantId)
  loadingMore : Bool

/-- The entry of a first page. -/
def GridAnswer.entry (answer : GridAnswer) : GridEntry where
  clock := answer.clock
  covenants := answer.covenants
  index := buildIndex answer.clock answer.covenants
  next := answer.next
  loadingMore := false

/-- What `loadMoreGrid` does with an answer. -/
def GridEntry.merge (answer : GridAnswer) (entry : GridEntry) : GridEntry :=
  let fresh := answer.covenants.filter fun c ↦ (entry.index.byId.get? c.covenantId).isNone
  { clock := entry.clock
    covenants := entry.covenants ++ fresh
    index := appendToIndex entry.clock entry.index fresh
    next := answer.next
    loadingMore := false }

/-- A request of `refreshSnapshot`: how many rows it asks for, and the `generated_at_ms` of the
entry it found. -/
structure GridRefresh where
  limit : Nat
  old : Option Int

/-- `refreshSnapshot` up to its wait: at least as many rows as there are. -/
def gridRefresh (entry : Option GridEntry) : GridRefresh where
  limit := (entry.map fun e ↦ max gridPageSize e.covenants.length).getD gridPageSize
  old := entry.map (·.clock.generatedAtMs)

/-- What the browser has of a network: `state.cache`, whether `networkInflight` has a request,
and the one refresh that `snapshotRefreshGate` lets run. -/
structure GridState where
  entry : Option GridEntry := none
  loading : Bool := false
  refreshing : Option GridRefresh := none

/-- What happens to a network.  The first page, more rows and a refresh are asked for; each
request is answered, by the worker as it is then, or fails; and `retry` drops the entry. -/
inductive GridAction
  | load
  | loaded (served : ServedStore) (clock : GridClock)
  | unloaded
  | more
  | arrive (served : ServedStore) (clock : GridClock)
  | fail
  | refresh
  | refreshed (served : ServedStore) (clock : GridClock)
  | unrefreshed
  | retry

/-- `loadNetwork`, `loadMoreGrid` and `refreshSnapshot`, each up to its wait and behind it.  More
rows for an entry that was replaced meanwhile go to the old object. -/
def gridStep (s : GridState) : GridAction → GridState
  | .load => if s.entry.isSome then s else { s with loading := true }
  | .loaded served clock =>
      if s.loading then
        { s with
          entry := some (fetchGridPage served clock none gridPageSize).entry
          loading := false }
      else s
  | .unloaded => { s with loading := false }
  | .more =>
      { s with
        entry := s.entry.map fun e ↦
          if e.next.isSome ∧ ¬ e.loadingMore then { e with loadingMore := true } else e }
  | .arrive served clock =>
      { s with
        entry := s.entry.map fun e ↦
          if e.loadingMore then e.merge (fetchGridPage served clock e.next gridPageSize) else e }
  | .fail => { s with entry := s.entry.map ({ · with loadingMore := false }) }
  | .refresh =>
      if s.refreshing.isSome then s else { s with refreshing := some (gridRefresh s.entry) }
  | .refreshed served clock =>
      match s.refreshing with
      | some request =>
          { s with
            entry :=
              if request.old = some clock.generatedAtMs then s.entry
              else some (fetchGridPage served clock none request.limit).entry
            refreshing := none }
      | none => s
  | .unrefreshed => { s with refreshing := none }
  | .retry => { s with entry := none }

def gridRun (s : GridState) (actions : List GridAction) : GridState := actions.foldl gridStep s

end Kascov
