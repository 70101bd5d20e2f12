import Kascov.Lib.Fallible
import Kascov.Preflight.Fields

/-!
# Published token lists

`registry.rs`: a launchpad's list is read, and the structural statements of each entry are
compared with the chain.  A statement the reader cannot use is treated as one that was never
made, and an owner is compared by its identifier, whatever its type.
-/

namespace Kascov.Listed

open Preflight (Value isWhitespace trimText)

/-! ## Reading the list -/

/-- The result of testing one published statement. -/
inductive Checked where
  | matched
  | differ
  | notStated
  | unproven
deriving DecidableEq, Repr

structure ListedVesting where
  total : UInt64
  startScore : UInt64
  durationScore : UInt64
deriving DecidableEq, Repr

structure ListedToken where
  covenantId : Text
  name : Option Text
  ticker : Option Text
  image : Option Text
  decimals : Option Nat
  genesisTxid : Option Text
  curveCovenantId : Option Text
  poolCovenantId : Option Text
  creatorPubkey : Option Text
  vesting : Option ListedVesting
deriving DecidableEq, Repr

/-- `to_ascii_lowercase`. -/
def asciiLowercase (s : Text) : Text := s.map Char.toLower

/-- `norm_id`, and `norm_key`: 64 lowercase hex digits. -/
def normId (s : String) : Option Text :=
  let s := asciiLowercase (trimText s.toList)
  if s.length = 64 ∧ s.all fun c ↦ (hexValue c).isSome then some s else none

/-- `char::is_control`. -/
def isControl (c : Char) : Bool :=
  let n := c.toNat
  n < 0x20 || (0x7f ≤ n && n < 0xa0)

/-- `safe_image`. -/
def safeImage (u : String) : Option Text :=
  let u := trimText u.toList
  let lower := asciiLowercase u
  if u.length ≤ 256 ∧ !u.any isControl ∧
      ("https://".toList.isPrefixOf lower || "ipfs://".toList.isPrefixOf lower) then some u
  else none

/-- `clean_text`. -/
def cleanText (s : String) (max : Nat) : Option Text :=
  let s := trimText s.toList
  if !s.isEmpty ∧ s.length ≤ max ∧ !s.any isControl then some s else none

/-- `Value::as_str`. -/
def asStr : Value → Option String
  | .str s => some s
  | _ => none

/-- `Value::as_u64`. -/
def numberU64 : Value → Option UInt64
  | .num (.unsigned n) => some n
  | _ => none

/-- A field of the entry's `extensions`. -/
def extension (t : Value) (k : String) : Option Value := (t.get "extensions").bind (·.get k)

/-- The schedule inside `curveParams`, where it is whole. -/
def readVesting (t : Value) : Option ListedVesting := do
  let v ← ((extension t "curveParams").bind (·.get "vesting"))
  let n (k : String) := (v.get k).bind numberU64
  some
    { total := ← n "total"
      startScore := ← n "startScore"
      durationScore := ← n "durationScore" }

/-- One turn of the loop of `parse_list`: an entry that names no covenant is left out. -/
def readEntry (t : Value) : Option ListedToken := do
  let covenantId ← ((t.get "covenantId").bind asStr).bind normId
  let extStr (k : String) := (extension t k).bind asStr
  some
    { covenantId
      name := ((t.get "name").bind asStr).bind (cleanText · 48)
      ticker := ((t.get "symbol").bind asStr).bind (cleanText · 12)
      image := ((t.get "logoURI").bind asStr).bind safeImage
      decimals := (((t.get "decimals").bind numberU64).filter (· ≤ 255)).map (·.toNat)
      genesisTxid := (extStr "genesisTxid").bind normId
      curveCovenantId := (extStr "curveCovenantId").bind normId
      poolCovenantId := (extStr "poolCovenantId").bind normId
      creatorPubkey := (extStr "creatorPubkey").bind normId
      vesting := readVesting t }

/-- A list that names a network names this one. -/
def checkNetwork (doc : Value) (network : String) : Except String Unit :=
  match (doc.get "network").bind asStr with
  | some n =>
      if asciiLowercase n.toList = asciiLowercase network.toList then .ok ()
      else .error ("list is for network " ++ n ++ ", not " ++ network)
  | none => .ok ()

/-- `parse_list`, over the JSON reader. -/
def parseList (fromStr : String → Except String Value) (body network : String) :
    Except String (List ListedToken) := do
  let doc ← fromStr body
  checkNetwork doc network
  match (doc.get "tokens").bind Json.items? with
  | some items => .ok (items.filterMap readEntry)
  | none => .error "list has no `tokens` array"

/-! ## Checking an entry -/

/-- An owner of record: an identifier of some type. -/
structure Owner where
  identifierType : UInt8
  identifier : Bytes
  length_eq : identifier.length = 32
deriving DecidableEq

/-- An owner key, `hex(identifier_type || owner_identifier)`. -/
def Owner.key (o : Owner) : Text := toHex (o.identifierType :: o.identifier)

/-- What is known of a covenant from the chain.  The owners are kept as their keys. -/
structure ChainFacts where
  known : Bool
  genesisTxid : Option Text
  owners : List Owner
  genesisOwners : List Owner
  vestedCreators : List Text

structure CheckedEntry where
  covenantId : Text
  name : Option Text
  ticker : Option Text
  image : Option Text
  decimals : Option Nat
  known : Bool
  genesisTxid : Checked
  curveCovenant : Checked
  creatorKey : Checked
  allChecksPassed : Bool
deriving DecidableEq, Repr

/-- `o.len() == 66 && &o[2..] == id`. -/
def tailIs (o id : Text) : Bool := o.length = 66 && o.drop 2 = id

def checkGenesis (entry : ListedToken) (facts : ChainFacts) : Checked :=
  match entry.genesisTxid, facts.genesisTxid with
  | none, _ => .notStated
  | some _, none => .unproven
  | some a, some b => if a = b then .matched else .differ

def checkCurve (entry : ListedToken) (facts : ChainFacts) : Checked :=
  let stated := entry.curveCovenantId.toList ++ entry.poolCovenantId.toList
  let owners := facts.owners.map Owner.key
  if stated = [] then .notStated
  else if !facts.known then .unproven
  else if stated.any fun id ↦ owners.any (tailIs · id) then .matched
  else if owners.any ("02".toList.isPrefixOf ·) then .differ
  else .unproven

def checkCreator (entry : ListedToken) (facts : ChainFacts) : Checked :=
  match entry.creatorPubkey with
  | none => .notStated
  | some key =>
      let owners := facts.genesisOwners.map Owner.key
      let unexplainedLock := owners.any fun o ↦
        o.length = 66 && "02".toList.isPrefixOf o && some (o.drop 2) ≠ entry.curveCovenantId &&
          some (o.drop 2) ≠ entry.poolCovenantId
      if facts.genesisOwners = [] then .unproven
      else if owners.any (tailIs · key) then .matched
      else if facts.vestedCreators.any (· = key) then .matched
      else if unexplainedLock then .unproven
      else .differ

/-- `check`. -/
def check (entry : ListedToken) (facts : ChainFacts) : CheckedEntry :=
  let checks := [checkGenesis entry facts, checkCurve entry facts, checkCreator entry facts]
  { covenantId := entry.covenantId
    name := entry.name
    ticker := entry.ticker
    image := entry.image
    decimals := entry.decimals
    known := facts.known
    genesisTxid := checkGenesis entry facts
    curveCovenant := checkCurve entry facts
    creatorKey := checkCreator entry facts
    allChecksPassed := facts.known && checks.any (· = .matched) &&
      checks.all fun c ↦ c = .matched ∨ c = .notStated }

/-! ## What the checks compare -/

theorem Owner.key_eq (o : Owner) : o.key = toHex [o.identifierType] ++ toHex o.identifier := by
  rw [Owner.key, toHex, toHex, toHex, List.flatMap_cons, List.flatMap_singleton]

theorem Owner.length_key (o : Owner) : o.key.length = 66 := by
  rw [Owner.key, length_toHex, List.length_cons, o.length_eq]

/-- The tail of an owner key is the identifier. -/
theorem Owner.drop_key (o : Owner) : o.key.drop 2 = toHex o.identifier := rfl

@[simp] theorem tailIs_key (o : Owner) (id : Text) :
    tailIs o.key id = true ↔ toHex o.identifier = id := by
  rw [tailIs, o.drop_key, o.length_key]
  simp

theorem toHex_injective {a b : Bytes} (h : toHex a = toHex b) : a = b := by
  have hread := congrArg hexBytes h
  rw [hexBytes_toHex, hexBytes_toHex] at hread
  exact Option.some.inj hread

/-- The type comes first in the key, as two digits. -/
theorem Owner.covenant_key (o : Owner) :
    "02".toList.isPrefixOf o.key = true ↔ o.identifierType = 2 := by
  have htwo : "02".toList = toHex [2] := by decide
  have hlen : (toHex [2]).length = (toHex [o.identifierType]).length := by
    rw [length_toHex, length_toHex]
    rfl
  rw [List.isPrefixOf_iff_prefix, htwo, o.key_eq]
  constructor
  · intro h
    have hpre : toHex [2] <+: toHex [o.identifierType] :=
      List.prefix_of_prefix_length_le h (List.prefix_append _ _) hlen.le
    exact (List.singleton_inj.mp (toHex_injective (hpre.eq_of_length hlen))).symm
  · intro h
    rw [h]
    exact List.prefix_append _ _

namespace ListedToken

variable (e : ListedToken) (facts : ChainFacts)

/-- The entry states the id, as its curve or as its pool. -/
def Names (id : Text) : Prop := e.curveCovenantId = some id ∨ e.poolCovenantId = some id

instance (id : Text) : Decidable (e.Names id) := inferInstanceAs (Decidable (_ ∨ _))

/-- The genesis the entry states is that of the chain. -/
def GenesisAgrees : Prop := ∃ a, e.genesisTxid = some a ∧ facts.genesisTxid = some a

/-- An id the entry states is that of an owner of record. -/
def CurveAgrees : Prop := ∃ o ∈ facts.owners, e.Names (toHex o.identifier)

/-- The key the entry states is that of a genesis owner, or proven through a lock. -/
def CreatorAgrees : Prop :=
  ∃ key, e.creatorPubkey = some key ∧ facts.genesisOwners ≠ [] ∧
    ((∃ o ∈ facts.genesisOwners, toHex o.identifier = key) ∨ key ∈ facts.vestedCreators)

end ListedToken

variable {e : ListedToken} {facts : ChainFacts}

theorem checkGenesis_eq_notStated : checkGenesis e facts = .notStated ↔ e.genesisTxid = none := by
  unfold checkGenesis
  cases e.genesisTxid <;> cases facts.genesisTxid <;> simp
  split <;> simp

theorem checkGenesis_eq_matched : checkGenesis e facts = .matched ↔ e.GenesisAgrees facts := by
  unfold checkGenesis ListedToken.GenesisAgrees
  cases e.genesisTxid <;> cases facts.genesisTxid <;> simp
  exact eq_comm

theorem stated_eq_nil :
    e.curveCovenantId.toList ++ e.poolCovenantId.toList = [] ↔
      e.curveCovenantId = none ∧ e.poolCovenantId = none := by
  cases e.curveCovenantId <;> cases e.poolCovenantId <;> simp

theorem any_stated_iff :
    ((e.curveCovenantId.toList ++ e.poolCovenantId.toList).any fun id ↦
      (facts.owners.map Owner.key).any (tailIs · id)) = true ↔ e.CurveAgrees facts := by
  simp only [List.any_eq_true, List.mem_append, Option.mem_toList, List.mem_map,
    ListedToken.CurveAgrees, ListedToken.Names]
  constructor
  · rintro ⟨id, hid, _, ⟨o, ho, rfl⟩, htail⟩
    exact ⟨o, ho, (tailIs_key o id).mp htail ▸ hid⟩
  · rintro ⟨o, ho, hid⟩
    exact ⟨_, hid, _, ⟨o, ho, rfl⟩, (tailIs_key o _).mpr rfl⟩

theorem checkCurve_eq_notStated :
    checkCurve e facts = .notStated ↔ e.curveCovenantId = none ∧ e.poolCovenantId = none := by
  rw [checkCurve, ← stated_eq_nil]
  split
  · simp_all
  · split_ifs <;> simp_all

theorem checkCurve_eq_matched :
    checkCurve e facts = .matched ↔ facts.known = true ∧ e.CurveAgrees facts := by
  rw [checkCurve, ← any_stated_iff]
  split
  · simp_all
  · split_ifs <;> simp_all

theorem any_key_iff {owners : List Owner} {key : Text} :
    (owners.map Owner.key).any (tailIs · key) = true ↔
      ∃ o ∈ owners, toHex o.identifier = key := by
  simp only [List.any_eq_true, List.mem_map]
  constructor
  · rintro ⟨_, ⟨o, ho, rfl⟩, htail⟩
    exact ⟨o, ho, (tailIs_key o key).mp htail⟩
  · rintro ⟨o, ho, hkey⟩
    exact ⟨_, ⟨o, ho, rfl⟩, (tailIs_key o key).mpr hkey⟩

theorem checkCreator_eq_notStated :
    checkCreator e facts = .notStated ↔ e.creatorPubkey = none := by
  unfold checkCreator
  cases e.creatorPubkey with
  | none => simp
  | some key =>
      dsimp only
      split_ifs <;> simp

theorem checkCreator_eq_matched : checkCreator e facts = .matched ↔ e.CreatorAgrees facts := by
  unfold checkCreator ListedToken.CreatorAgrees
  cases e.creatorPubkey with
  | none => simp
  | some key =>
      simp only [Option.some.injEq, exists_eq_left', ← any_key_iff]
      split_ifs <;> simp_all

/-- A creator that differs: every covenant with a genesis allocation is one the entry
names. -/
theorem names_of_checkCreator_differ (h : checkCreator e facts = .differ) :
    facts.genesisOwners ≠ [] ∧ ∀ o ∈ facts.genesisOwners, o.identifierType = 2 →
      e.Names (toHex o.identifier) := by
  unfold checkCreator at h
  cases hkey : e.creatorPubkey with
  | none =>
      rw [hkey] at h
      cases h
  | some key =>
      rw [hkey] at h
      dsimp only at h
      split_ifs at h with hnil _ _ hlock
      refine ⟨hnil, fun o ho htype ↦ ?_⟩
      by_contra hnames
      refine hlock (List.any_eq_true.mpr ⟨o.key, List.mem_map_of_mem ho, ?_⟩)
      obtain ⟨hcurve, hpool⟩ := not_or.mp hnames
      simp only [o.length_key, o.drop_key, o.covenant_key.mpr htype, decide_true, Bool.true_and,
        Bool.and_eq_true]
      exact ⟨decide_eq_true (Ne.symm hcurve), decide_eq_true (Ne.symm hpool)⟩

namespace ListedToken

variable (e facts)

/-- What the entry states and the reader kept agrees with the chain, and is something. -/
structure Agrees : Prop where
  some : e.GenesisAgrees facts ∨ e.CurveAgrees facts ∨ e.CreatorAgrees facts
  genesis : e.genesisTxid = none ∨ e.GenesisAgrees facts
  curve : (e.curveCovenantId = none ∧ e.poolCovenantId = none) ∨ e.CurveAgrees facts
  creator : e.creatorPubkey = none ∨ e.CreatorAgrees facts

end ListedToken

theorem allChecksPassed_iff :
    (check e facts).allChecksPassed = true ↔ facts.known = true ∧ e.Agrees facts := by
  have hall : (check e facts).allChecksPassed = true ↔ facts.known = true ∧
      (checkGenesis e facts = .matched ∨ checkCurve e facts = .matched ∨
        checkCreator e facts = .matched) ∧
      (checkGenesis e facts = .matched ∨ checkGenesis e facts = .notStated) ∧
      (checkCurve e facts = .matched ∨ checkCurve e facts = .notStated) ∧
      (checkCreator e facts = .matched ∨ checkCreator e facts = .notStated) := by
    simp [check, and_assoc]
  rw [hall, checkGenesis_eq_matched, checkCurve_eq_matched, checkCreator_eq_matched,
    checkGenesis_eq_notStated, checkCurve_eq_notStated, checkCreator_eq_notStated]
  constructor
  · rintro ⟨hknown, hsome, hgenesis, hcurve, hcreator⟩
    exact ⟨hknown, hsome.imp_right (Or.imp_left And.right), hgenesis.symm,
      (hcurve.imp_left And.right).symm, hcreator.symm⟩
  · rintro ⟨hknown, h⟩
    exact ⟨hknown, h.some.imp_right (Or.imp_left (⟨hknown, ·⟩)), h.genesis.symm,
      (h.curve.imp_right (⟨hknown, ·⟩)).symm, h.creator.symm⟩

/-! ## What the badge may say -/

/-- The published entry makes the statement: the field is there and is not null. -/
def States (t : Value) (k : String) : Prop :=
  match extension t k with
  | none | some .null => False
  | some _ => True

instance (t : Value) (k : String) : Decidable (States t k) :=
  match h : extension t k with
  | none => .isFalse (by simp [States, h])
  | some .null => .isFalse (by simp [States, h])
  | some (.bool _) | some (.num _) | some (.str _) | some (.arr _) | some (.obj _) =>
      .isTrue (by simp [States, h])

/-- The verdicts on an entry, read from the published one, claim no more than was proven. -/
structure NeverOverClaims (t : Value) (e : ListedToken) (facts : ChainFacts) : Prop where
  curve : (check e facts).curveCovenant = .matched →
    ∃ o ∈ facts.owners, o.identifierType = 2 ∧ e.Names (toHex o.identifier)
  creator : (check e facts).creatorKey = .matched → ∃ key, e.creatorPubkey = some key ∧
    ((∃ o ∈ facts.genesisOwners, o.identifierType ≠ 2 ∧ toHex o.identifier = key) ∨
      key ∈ facts.vestedCreators)
  differ : (check e facts).creatorKey = .differ → facts.genesisOwners ≠ [] ∧
    ∀ o ∈ facts.genesisOwners, o.identifierType = 2 → e.Names (toHex o.identifier)
  badge : (check e facts).allChecksPassed = true → facts.known = true ∧
    (States t "genesisTxid" → (check e facts).genesisTxid = .matched) ∧
    (States t "curveCovenantId" ∨ States t "poolCovenantId" →
      (check e facts).curveCovenant = .matched) ∧
    (States t "creatorPubkey" → (check e facts).creatorKey = .matched)

/-- A statement of the published entry that the reader left out. -/
def Dropped (t : Value) (e : ListedToken) : Prop :=
  (States t "genesisTxid" ∧ e.genesisTxid = none) ∨
  ((States t "curveCovenantId" ∨ States t "poolCovenantId") ∧
    e.curveCovenantId = none ∧ e.poolCovenantId = none) ∨
  (States t "creatorPubkey" ∧ e.creatorPubkey = none)

/-- The entry is one the checks can tell: an identifier it states is not that of an owner of
another type alone, and no statement is dropped where the others agree. -/
structure Tellable (t : Value) (e : ListedToken) (facts : ChainFacts) : Prop where
  curve : facts.known = true → e.CurveAgrees facts →
    ∃ o ∈ facts.owners, o.identifierType = 2 ∧ e.Names (toHex o.identifier)
  creator : ∀ key, e.creatorPubkey = some key →
    (∃ o ∈ facts.genesisOwners, toHex o.identifier = key) →
    (∃ o ∈ facts.genesisOwners, o.identifierType ≠ 2 ∧ toHex o.identifier = key) ∨
      key ∈ facts.vestedCreators
  kept : facts.known = true → e.Agrees facts → ¬ Dropped t e

theorem neverOverClaims_iff {t : Value} : NeverOverClaims t e facts ↔ Tellable t e facts := by
  constructor
  · intro h
    refine ⟨fun hknown hagrees ↦ h.curve (checkCurve_eq_matched.mpr ⟨hknown, hagrees⟩),
      fun key hkey ⟨o, ho, hid⟩ ↦ ?_, fun hknown hagrees ↦ ?_⟩
    · obtain ⟨key', hkey', hproof⟩ := h.creator
        (checkCreator_eq_matched.mpr ⟨key, hkey, List.ne_nil_of_mem ho, .inl ⟨o, ho, hid⟩⟩)
      obtain rfl := Option.some.inj (hkey.symm.trans hkey')
      exact hproof
    · obtain ⟨-, hgenesis, hcurve, hcreator⟩ := h.badge (allChecksPassed_iff.mpr ⟨hknown, hagrees⟩)
      rintro (⟨hs, hnone⟩ | ⟨hs, hnone⟩ | ⟨hs, hnone⟩)
      · have hstated := hgenesis hs
        rw [check, checkGenesis_eq_notStated.mpr hnone] at hstated
        cases hstated
      · have hstated := hcurve hs
        rw [check, checkCurve_eq_notStated.mpr hnone] at hstated
        cases hstated
      · have hstated := hcreator hs
        rw [check, checkCreator_eq_notStated.mpr hnone] at hstated
        cases hstated
  · intro h
    refine ⟨fun hmatched ↦ ?_, fun hmatched ↦ ?_, names_of_checkCreator_differ, fun hpassed ↦ ?_⟩
    · obtain ⟨hknown, hagrees⟩ := checkCurve_eq_matched.mp hmatched
      exact h.curve hknown hagrees
    · obtain ⟨key, hkey, -, howner | hvested⟩ := checkCreator_eq_matched.mp hmatched
      · exact ⟨key, hkey, h.creator key hkey howner⟩
      · exact ⟨key, hkey, .inr hvested⟩
    · obtain ⟨hknown, hagrees⟩ := allChecksPassed_iff.mp hpassed
      have hkept := h.kept hknown hagrees
      refine ⟨hknown, fun hs ↦ ?_, fun hs ↦ ?_, fun hs ↦ ?_⟩
      · refine checkGenesis_eq_matched.mpr (hagrees.genesis.resolve_left fun hnone ↦ ?_)
        exact hkept (.inl ⟨hs, hnone⟩)
      · refine checkCurve_eq_matched.mpr ⟨hknown, hagrees.curve.resolve_left fun hnone ↦ ?_⟩
        exact hkept (.inr (.inl ⟨hs, hnone⟩))
      · refine checkCreator_eq_matched.mpr (hagrees.creator.resolve_left fun hnone ↦ ?_)
        exact hkept (.inr (.inr ⟨hs, hnone⟩))

/-! ## A whole list -/

variable (fromStr : String → Except String Value) (body : String)

/-- The document publishes the entry, and the reader makes this of it. -/
def Publishes (t : Value) (e : ListedToken) : Prop :=
  ∃ doc items, fromStr body = .ok doc ∧ (doc.get "tokens").bind Json.items? = some items ∧
    t ∈ items ∧ readEntry t = some e

variable {fromStr body} {network : String} {entries : List ListedToken}

theorem parseList_eq_ok : parseList fromStr body network = .ok entries ↔
    ∃ doc items, fromStr body = .ok doc ∧ checkNetwork doc network = .ok () ∧
      (doc.get "tokens").bind Json.items? = some items ∧ entries = items.filterMap readEntry := by
  simp only [parseList, Fallible.bind_eq_ok]
  constructor
  · rintro ⟨doc, hdoc, ⟨⟩, hnetwork, h⟩
    cases hitems : (doc.get "tokens").bind Json.items? with
    | none =>
        rw [hitems] at h
        cases h
    | some items =>
        rw [hitems] at h
        exact ⟨doc, items, hdoc, hnetwork, hitems, (Except.ok.inj h).symm⟩
  · rintro ⟨doc, items, hdoc, hnetwork, hitems, rfl⟩
    exact ⟨doc, hdoc, (), hnetwork, by rw [hitems]⟩

/-- **The checks of a published list.**  The entries returned are those the document
publishes; what is said of one claims no more than was proven exactly where the checks can
tell. -/
theorem checkedList_iff (h : parseList fromStr body network = .ok entries) (facts : ChainFacts) :
    (∀ e, e ∈ entries ↔ ∃ t, Publishes fromStr body t e) ∧
      ∀ t e, Publishes fromStr body t e → (NeverOverClaims t e facts ↔ Tellable t e facts) := by
  obtain ⟨doc, items, hdoc, -, hitems, rfl⟩ := parseList_eq_ok.mp h
  refine ⟨fun e ↦ ?_, fun t e _ ↦ neverOverClaims_iff⟩
  rw [List.mem_filterMap]
  constructor
  · rintro ⟨t, ht, he⟩
    exact ⟨t, doc, items, hdoc, hitems, ht, he⟩
  · rintro ⟨t, doc', items', hdoc', hitems', ht, he⟩
    obtain rfl := Except.ok.inj (hdoc.symm.trans hdoc')
    obtain rfl := Option.some.inj (hitems.symm.trans hitems')
    exact ⟨t, ht, he⟩

/-! ## A list that is believed too far -/

/-- Sixty-four times the same digit. -/
def sampleHex (c : Char) : String := .ofList (.replicate 64 c)

/-- A published entry of a covenant, with its structural statements. -/
def sampleEntry (exts : List (String × String)) : Value :=
  .obj [("covenantId", .str (sampleHex 'a')),
    ("extensions", .obj (exts.map fun (k, v) ↦ (k, .str v)))]

/-- The entry as it is written. -/
def sampleEntryText (exts : List (String × String)) : String :=
  "\x7b\"covenantId\":\"" ++ sampleHex 'a' ++ "\",\"extensions\":\x7b" ++
    ",".intercalate (exts.map fun (k, v) ↦ "\"" ++ k ++ "\":\"" ++ v ++ "\"") ++ "\x7d\x7d"

/-- The owner of the inventory is stated as the curve. -/
def curveStated : List (String × String) := [("curveCovenantId", sampleHex 'b')]

/-- The covenant of the genesis allocation is stated as the creator. -/
def creatorStated : List (String × String) := [("creatorPubkey", sampleHex 'b')]

/-- The genesis is stated, and a creator key that cannot be read. -/
def keylessStated : List (String × String) :=
  [("genesisTxid", sampleHex 'c'), ("creatorPubkey", "0x")]

def samples : List (List (String × String)) := [curveStated, creatorStated, keylessStated]

def sampleBody : String :=
  "\x7b\"tokens\":[" ++ ",".intercalate (samples.map sampleEntryText) ++ "]\x7d"

def sampleDoc : Value := .obj [("tokens", .arr (samples.map sampleEntry))]

/-- The JSON reader, on the sample. -/
def sampleFromStr : String → Except String Value := fun _ ↦ .ok sampleDoc

def sampleToken : ListedToken where
  covenantId := .replicate 64 'a'
  name := none
  ticker := none
  image := none
  decimals := none
  genesisTxid := none
  curveCovenantId := none
  poolCovenantId := none
  creatorPubkey := none
  vesting := none

def sampleOwner (identifierType : UInt8) : Owner where
  identifierType := identifierType
  identifier := .replicate 32 0xbb
  length_eq := rfl

/-- The owner of record and of the genesis allocation is of the type. -/
def sampleFacts (identifierType : UInt8) : ChainFacts where
  known := true
  genesisTxid := some (.replicate 64 'c')
  owners := [sampleOwner identifierType]
  genesisOwners := [sampleOwner identifierType]
  vestedCreators := []

theorem normId_sampleHex {c : Char} (h : c = 'a' ∨ c = 'b' ∨ c = 'c') :
    normId (sampleHex c) = some (.replicate 64 c) := by
  rw [normId, sampleHex, String.toList_ofList]
  obtain rfl | rfl | rfl := h <;> decide +kernel

theorem lookup_map_str (exts : List (String × String)) (k : String) :
    (exts.map fun (k, v) ↦ (k, (.str v : Value))).lookup k = (exts.lookup k).map .str := by
  induction exts with
  | nil => rfl
  | cons ext exts ih =>
      rw [List.map_cons, List.lookup_cons, List.lookup_cons, ih]
      split <;> rfl

theorem extension_sampleEntry (exts : List (String × String)) (k : String) :
    extension (sampleEntry exts) k = (exts.lookup k).map .str := by
  rw [← lookup_map_str]
  simp [extension, sampleEntry, Json.get, List.lookup_cons]

/-- What the reader makes of the entry. -/
def sampleRead (exts : List (String × String)) : ListedToken :=
  { sampleToken with
    genesisTxid := (exts.lookup "genesisTxid").bind normId
    curveCovenantId := (exts.lookup "curveCovenantId").bind normId
    poolCovenantId := (exts.lookup "poolCovenantId").bind normId
    creatorPubkey := (exts.lookup "creatorPubkey").bind normId }

theorem readEntry_sampleEntry (exts : List (String × String)) :
    readEntry (sampleEntry exts) = some (sampleRead exts) := by
  have hid : ((sampleEntry exts).get "covenantId").bind asStr = some (sampleHex 'a') := by
    simp [sampleEntry, Json.get, asStr]
  have hget (k : String) (h : k ≠ "covenantId") (h' : k ≠ "extensions") :
      (sampleEntry exts).get k = none := by
    rw [sampleEntry, Json.get, List.lookup_cons, beq_false_of_ne h, List.lookup_cons,
      beq_false_of_ne h']
    rfl
  have hstr (k : String) : (extension (sampleEntry exts) k).bind asStr = exts.lookup k := by
    rw [extension_sampleEntry]
    cases exts.lookup k <;> rfl
  have hvesting : readVesting (sampleEntry exts) = none := by
    rw [readVesting, extension_sampleEntry]
    cases exts.lookup "curveParams" <;> rfl
  rw [readEntry, hid, Option.bind_some, normId_sampleHex (.inl rfl), hget "name" (by decide)
    (by decide), hget "symbol" (by decide) (by decide), hget "logoURI" (by decide) (by decide),
    hget "decimals" (by decide) (by decide), hvesting]
  simp only [hstr]
  rfl

theorem publishes_sample (exts : List (String × String)) (h : exts ∈ samples) :
    Publishes sampleFromStr sampleBody (sampleEntry exts) (sampleRead exts) :=
  ⟨sampleDoc, samples.map sampleEntry, rfl, by simp [sampleDoc, Json.get, Json.items?],
    List.mem_map_of_mem h, readEntry_sampleEntry exts⟩

theorem parseList_sample :
    parseList sampleFromStr sampleBody "mainnet" = .ok (samples.map sampleRead) := by
  have hnetwork : sampleDoc.get "network" = none := by simp [sampleDoc, Json.get, List.lookup_cons]
  have hitems : (sampleDoc.get "tokens").bind Json.items? = some (samples.map sampleEntry) := by
    simp [sampleDoc, Json.get, Json.items?]
  have hread : (samples.map sampleEntry).filterMap readEntry = samples.map sampleRead := by
    rw [List.filterMap_map, ← List.filterMap_eq_map]
    exact List.filterMap_congr fun exts _ ↦ readEntry_sampleEntry exts
  refine parseList_eq_ok.mpr ⟨sampleDoc, _, rfl, ?_, hitems, hread.symm⟩
  rw [checkNetwork, hnetwork]
  rfl

theorem toHex_sampleOwner (identifierType : UInt8) :
    toHex (sampleOwner identifierType).identifier = .replicate 64 'b' := by
  change toHex (.replicate 32 0xbb) = _
  decide +kernel

/-- The checks tell the curve of the sample where its owner is a covenant. -/
theorem checkedList_sample :
    NeverOverClaims (sampleEntry curveStated) (sampleRead curveStated) (sampleFacts 2) := by
  refine ((checkedList_iff parseList_sample (sampleFacts 2)).2 _ _
    (publishes_sample _ List.mem_cons_self)).mpr
    ⟨fun _ ⟨o, ho, hnames⟩ ↦ ⟨o, ho, ?_, hnames⟩, ?_, ?_⟩
  · rw [List.mem_singleton.mp ho]
    rfl
  · rintro key hkey -
    simp [sampleRead, curveStated, List.lookup_cons] at hkey
  · rintro - - (⟨hs, -⟩ | ⟨-, hnone, -⟩ | ⟨hs, -⟩)
    · simp [States, extension_sampleEntry, curveStated, List.lookup_cons] at hs
    · simp [sampleRead, curveStated, normId_sampleHex] at hnone
    · simp [States, extension_sampleEntry, curveStated, List.lookup_cons] at hs

/-- An owner that is no covenant passes for the curve, a covenant for the creator, and a key
that cannot be read for none. -/
theorem overClaimed :
    (∃ t e, Publishes sampleFromStr sampleBody t e ∧ ¬ NeverOverClaims t e (sampleFacts 0)) ∧
    (∃ t e, Publishes sampleFromStr sampleBody t e ∧ ¬ NeverOverClaims t e (sampleFacts 2)) ∧
    ∃ t e, Publishes sampleFromStr sampleBody t e ∧ Dropped t e ∧
      (check e (sampleFacts 2)).allChecksPassed = true := by
  have hsome (identifierType : UInt8) :
      some (toHex (sampleOwner identifierType).identifier) = normId (sampleHex 'b') := by
    rw [toHex_sampleOwner, normId_sampleHex (by decide)]
  have hkeyless : (sampleRead keylessStated).creatorPubkey = none := by
    simp only [sampleRead, keylessStated]
    decide +kernel
  refine ⟨⟨_, _, publishes_sample curveStated (by simp [samples]), fun h ↦ ?_⟩,
    ⟨_, _, publishes_sample creatorStated (by simp [samples]), fun h ↦ ?_⟩,
    _, _, publishes_sample keylessStated (by simp [samples]), ?_, ?_⟩
  · obtain ⟨o, ho, htype, -⟩ := (neverOverClaims_iff.mp h).curve rfl
      ⟨sampleOwner 0, List.mem_singleton_self _, .inl (by
        rw [hsome, sampleRead, curveStated, List.lookup_cons_self, Option.bind_some])⟩
    rw [List.mem_singleton.mp ho] at htype
    exact absurd htype (by decide)
  · obtain ⟨o, ho, htype, -⟩ | hvested := (neverOverClaims_iff.mp h).creator
      (toHex (sampleOwner 2).identifier)
      (by rw [hsome, sampleRead, creatorStated, List.lookup_cons_self, Option.bind_some])
      ⟨sampleOwner 2, List.mem_singleton_self _, rfl⟩
    · rw [List.mem_singleton.mp ho] at htype
      exact htype rfl
    · cases hvested
  · refine .inr (.inr ⟨?_, hkeyless⟩)
    simp [States, extension_sampleEntry, keylessStated, List.lookup_cons]
  · have hgenesis : (sampleRead keylessStated).GenesisAgrees (sampleFacts 2) := by
      refine ⟨.replicate 64 'c', ?_, rfl⟩
      rw [sampleRead, keylessStated, List.lookup_cons_self, Option.bind_some,
        normId_sampleHex (by decide)]
    refine allChecksPassed_iff.mpr ⟨rfl, .inl hgenesis, .inr hgenesis, .inl ?_, .inl hkeyless⟩
    simp [sampleRead, keylessStated, List.lookup_cons]

end Kascov.Listed
