import Kascov.Decode.Known
import Kascov.Web.Fields

/-!
# The programs that the form emits

`disasm.js`: the dumps that the page derives its skeletons from, and how it fills one in.  The
page's skeletons are those of the decoder, so the decoder names what the page emits.
-/

namespace Kascov

/-- A constructor argument: how it is entered, less what only a display reads. -/
structure FormParam where
  name : String
  kind : FieldKind
  source : String
deriving DecidableEq, Repr

/-- An entry of `SS_DUMPS`. -/
structure PageDump where
  name : String
  a : Text
  b : Text
  sentinels : List (String × Text)
  params : List FormParam

/-- `repeat`. -/
def repeatText (t : Text) (n : Nat) : Text := (List.replicate n t).flatten

/-- A text in rows. -/
def textOf (rows : List String) : Text := rows.flatMap String.toList

def mecenasDump : PageDump where
  name := "SilverScript · Mecenas"
  a := textOf
    ["6b6c76009c637502e803b100c32011111111111111111111111111111111111111111111111111111111",
      "11111111030000207c7e01ac7e876902e803b9be760400e1f50594527994760400e1f505547993a16300",
      "c252795479949c696700c20400e1f5059c6951c3b9bf876951c2789c6968007a75007a75007a75516776",
      "519c637578aa203333333333333333333333333333333333333333333333333333333333333333876976",
      "5279ac69757551677500696868"]
  b := textOf
    ["6b6c76009c637502d007b100c32022222222222222222222222222222222222222222222222222222222",
      "22222222030000207c7e01ac7e876902e803b9be760480b2e60e94527994760480b2e60e547993a16300",
      "c252795479949c696700c20480b2e60e9c6951c3b9bf876951c2789c6968007a75007a75007a75516776",
      "519c637578aa204444444444444444444444444444444444444444444444444444444444444444876976",
      "5279ac69757551677500696868"]
  sentinels :=
    [("recipient", repeatText "11".toList 32), ("funder_hash", repeatText "33".toList 32),
      ("pledge", "00e1f505".toList), ("period", "e803".toList)]
  params :=
    [⟨"recipient", .pubkey, "recipient"⟩, ⟨"funder_hash", .hash32, "funder"⟩,
      ⟨"pledge", .amount, "pledge"⟩, ⟨"period", .daa, "period"⟩]

def escrowDump : PageDump where
  name := "SilverScript · Escrow"
  a := textOf
    ["78aa2033333333333333333333333333333333333333333333333333333333333333338769765279ac69",
      "00c2b9be02e803949c6900c3201111111111111111111111111111111111111111111111111111111111",
      "111111030000207c7e01ac7e8700c3202222222222222222222222222222222222222222222222222222",
      "222222222222030000207c7e01ac7e879b69757551"]
  b := textOf
    ["78aa2044444444444444444444444444444444444444444444444444444444444444448769765279ac69",
      "00c2b9be02e803949c6900c3202222222222222222222222222222222222222222222222222222222222",
      "222222030000207c7e01ac7e8700c3201111111111111111111111111111111111111111111111111111",
      "111111111111030000207c7e01ac7e879b69757551"]
  sentinels :=
    [("arbiter_hash", repeatText "33".toList 32), ("buyer", repeatText "11".toList 32),
      ("seller", repeatText "22".toList 32)]
  params :=
    [⟨"arbiter_hash", .hash32, "arbiter"⟩, ⟨"buyer", .pubkey, "buyer"⟩,
      ⟨"seller", .pubkey, "seller"⟩]

def lastWillDump : PageDump where
  name := "SilverScript · LastWill"
  a := textOf
    ["6b6c76009c637502b400b178aa2033333333333333333333333333333333333333333333333333333333",
      "333333338769765279ac697575516776519c637578aa2044444444444444444444444444444444444444",
      "444444444444444444444444448769765279ac697575516776529c637578aa2011111111111111111111",
      "111111111111111111111111111111111111111111118769765279ac6900c2b9be02e803949c6900c3b9",
      "bf876975755167750069686868"]
  b := textOf
    ["6b6c76009c637502b400b178aa2044444444444444444444444444444444444444444444444444444444",
      "444444448769765279ac697575516776519c637578aa2033333333333333333333333333333333333333",
      "333333333333333333333333338769765279ac697575516776529c637578aa2022222222222222222222",
      "222222222222222222222222222222222222222222228769765279ac6900c2b9be02e803949c6900c3b9",
      "bf876975755167750069686868"]
  sentinels :=
    [("inheritor_hash", repeatText "33".toList 32), ("cold_hash", repeatText "44".toList 32),
      ("hot_hash", repeatText "11".toList 32)]
  params :=
    [⟨"inheritor_hash", .hash32, "inheritor"⟩, ⟨"cold_hash", .hash32, "cold"⟩,
      ⟨"hot_hash", .hash32, "hot"⟩]

/-- `SS_DUMPS`. -/
def SS_DUMPS : List PageDump := [mecenasDump, escrowDump, lastWillDump]

/-- A skeleton as the generator keeps it. -/
structure FormSkeleton extends PortSkeleton where
  emitVerified : Bool
  params : List FormParam

/-- `skeletons`: each is emitted with its sentinels to check it against its dump. -/
def skeletons : List FormSkeleton :=
  SS_DUMPS.filterMap fun d ↦ (deriveSkeleton d.name d.a d.b d.sentinels).map fun skel ↦
    let args := d.sentinels.map fun e ↦ (e.1, (parseHex e.2).getD [])
    { skel with
      emitVerified := (emitSkeleton args skel.items).map toHex = some d.a
      params := d.params }

/-- `emitFromSkeleton`. -/
def emitFromSkeleton (name : String) (args : List (String × Bytes)) : Option Bytes :=
  (skeletons.find? (·.name = name)).bind fun skel ↦ emitSkeleton args skel.items

/-! ## The dumps are those of the decoder -/

theorem sample_pledge : -2 ^ 63 ≤ (100000000 : Int) ∧ (100000000 : Int) < 2 ^ 63 := by decide

theorem sample_period : -2 ^ 63 ≤ (1000 : Int) ∧ (1000 : Int) < 2 ^ 63 := by decide

/-- What the decoder derives its skeletons from. -/
def decoderDumps : List (String × Bytes × Bytes × List (String × Bytes)) :=
  [("SilverScript · Mecenas", MECENAS_A, MECENAS_B,
      [("recipient", SENT_A32), ("funder_hash", SENT_C32),
        ("pledge", snum ⟨100000000, sample_pledge⟩), ("period", snum ⟨1000, sample_period⟩)]),
    ("SilverScript · Escrow", ESCROW_A, ESCROW_B,
      [("arbiter_hash", SENT_C32), ("buyer", SENT_A32), ("seller", SENT_B32)]),
    ("SilverScript · LastWill", LASTWILL_A, LASTWILL_B,
      [("inheritor_hash", SENT_C32), ("cold_hash", SENT_D32), ("hot_hash", SENT_A32)])]

theorem textOf_nil : textOf [] = [] := rfl

/-- A row that is written as its characters. -/
theorem textOf_cons {l : Text} {rows : List String} {t : Text} (h : textOf rows = t) :
    textOf (String.ofList l :: rows) = l ++ t := by
  rw [textOf, List.flatMap_cons, String.toList_ofList, ← textOf, h]

set_option maxRecDepth 4000 in
theorem mecenasDump_eq : mecenasDump.a = toHex MECENAS_A ∧ mecenasDump.b = toHex MECENAS_B := by
  dsimp only [mecenasDump]
  constructor
  · refine (textOf_cons (textOf_cons (textOf_cons (textOf_cons (textOf_cons textOf_nil))))).trans ?_
    decide +kernel
  · refine (textOf_cons (textOf_cons (textOf_cons (textOf_cons (textOf_cons textOf_nil))))).trans ?_
    decide +kernel

set_option maxRecDepth 4000 in
theorem escrowDump_eq : escrowDump.a = toHex ESCROW_A ∧ escrowDump.b = toHex ESCROW_B := by
  dsimp only [escrowDump]
  constructor
  · refine (textOf_cons (textOf_cons (textOf_cons (textOf_cons textOf_nil)))).trans ?_
    decide +kernel
  · refine (textOf_cons (textOf_cons (textOf_cons (textOf_cons textOf_nil)))).trans ?_
    decide +kernel

set_option maxRecDepth 4000 in
theorem lastWillDump_eq : lastWillDump.a = toHex LASTWILL_A ∧ lastWillDump.b = toHex LASTWILL_B := by
  dsimp only [lastWillDump]
  constructor
  · refine (textOf_cons (textOf_cons (textOf_cons (textOf_cons (textOf_cons textOf_nil))))).trans ?_
    decide +kernel
  · refine (textOf_cons (textOf_cons (textOf_cons (textOf_cons (textOf_cons textOf_nil))))).trans ?_
    decide +kernel

theorem dumps_eq : SS_DUMPS.map (fun d ↦ (d.name, d.a, d.b, d.sentinels)) =
    decoderDumps.map fun d ↦ (d.1, toHex d.2.1, toHex d.2.2.1,
      d.2.2.2.map fun e ↦ (e.1, toHex e.2)) := by
  have hsentinels : SS_DUMPS.map (fun d ↦ (d.name, d.sentinels)) =
      decoderDumps.map fun d ↦ (d.1, d.2.2.2.map fun e ↦ (e.1, toHex e.2)) := by
    decide +kernel
  simp only [SS_DUMPS, decoderDumps, List.map_cons, List.map_nil, List.cons.injEq, Prod.mk.injEq,
    and_true] at hsentinels ⊢
  obtain ⟨⟨hname, hs⟩, ⟨hname', hs'⟩, hname'', hs''⟩ := hsentinels
  exact ⟨⟨hname, mecenasDump_eq.1, mecenasDump_eq.2, hs⟩,
    ⟨hname', escrowDump_eq.1, escrowDump_eq.2, hs'⟩,
    hname'', lastWillDump_eq.1, lastWillDump_eq.2, hs''⟩

theorem silverscript_dumps : silverscriptSkeletons =
    (decoderDumps.map fun d ↦ Skeleton.derive d.1 d.2.1 d.2.2.1 d.2.2.2).reduceOption :=
  congrArg List.reduceOption rfl

/-- The page's skeletons are those of the decoder. -/
theorem skeletons_eq :
    skeletons.map (·.toPortSkeleton) = silverscriptSkeletons.map Skeleton.port := by
  have hderive : SS_DUMPS.map (fun d ↦ deriveSkeleton d.name d.a d.b d.sentinels) =
      decoderDumps.map fun d ↦
        (Skeleton.derive d.1 d.2.1 d.2.2.1 d.2.2.2).map Skeleton.port := by
    have h := congrArg (List.map fun d ↦ deriveSkeleton d.1 d.2.1 d.2.2.1 d.2.2.2) dumps_eq
    rw [List.map_map, List.map_map] at h
    refine h.trans (List.map_congr_left fun d hd ↦ deriveSkeleton_eq ?_)
    have hfull : ∀ d ∈ decoderDumps, d.2.1 ≠ [] := by decide +kernel
    exact fun hempty ↦ hfull d hd hempty.1
  calc skeletons.map (·.toPortSkeleton)
      = (SS_DUMPS.map fun d ↦ deriveSkeleton d.name d.a d.b d.sentinels).reduceOption := by
        rw [skeletons, List.map_filterMap, List.reduceOption, List.filterMap_map]
        refine List.filterMap_congr fun d _ ↦ ?_
        rw [Option.map_map]
        exact Option.map_id'
    _ = (decoderDumps.map fun d ↦
          (Skeleton.derive d.1 d.2.1 d.2.2.1 d.2.2.2).map Skeleton.port).reduceOption := by
        rw [hderive]
    _ = silverscriptSkeletons.map Skeleton.port := by
        rw [silverscript_dumps, ← List.reduceOption_map, List.map_map]
        rfl

/-- The page emits what the decoder's skeleton of the name emits. -/
theorem emitFromSkeleton_eq (name : String) (args : List (String × Bytes)) :
    emitFromSkeleton name args =
      (silverscriptSkeletons.find? (·.name = name)).bind (·.emit args) := by
  have hport : ∀ sks : List FormSkeleton,
      (sks.find? (·.name = name)).bind (fun skel ↦ emitSkeleton args skel.items) =
        ((sks.map (·.toPortSkeleton)).find? (·.name = name)).bind
          fun skel ↦ emitSkeleton args skel.items := by
    intro sks
    rw [List.find?_map, Option.bind_map]
    rfl
  rw [emitFromSkeleton, hport, skeletons_eq, List.find?_map, Option.bind_map]
  refine Option.bind_congr fun sk _ ↦ ?_
  exact emitSkeleton_eq args sk.items

/-! ## The Mecenas program -/

def MECENAS : String := "SilverScript · Mecenas"

/-- The arguments of the Mecenas form. -/
def mecenasArgs (recipient funder : Bytes32) (pledge period : Bytes) : List (String × Bytes) :=
  [("recipient", recipient.val), ("funder_hash", funder.val), ("pledge", pledge),
    ("period", period)]

/-- The fields of a Mecenas program. -/
def mecenasFields (recipient funder : Bytes32) (pledge period : Bytes) : List Field :=
  [⟨"recipient", recipient.val⟩, ⟨"funder_hash", funder.val⟩, ⟨"pledge", pledge⟩,
    ⟨"period", period⟩]

/-- The skeleton of the name comes first, and every argument of the form is a slot of it. -/
theorem mecenas_skeleton : ∃ sk rest, silverscriptSkeletons = sk :: rest ∧ sk.name = MECENAS ∧
    sk.Emits ∧ sk.paramOrder = ["recipient", "funder_hash", "pledge", "period"] ∧
      slotLabels sk.items = ["period", "recipient", "pledge", "pledge", "pledge", "funder_hash"] := by
  have hshape : (Skeleton.derive "SilverScript · Mecenas" MECENAS_A MECENAS_B
      [("recipient", SENT_A32), ("funder_hash", SENT_C32),
        ("pledge", snum ⟨100000000, by decide⟩), ("period", snum ⟨1000, by decide⟩)]).map
      (fun sk ↦ (sk.name, sk.paramOrder, slotLabels sk.items)) =
        some (MECENAS, ["recipient", "funder_hash", "pledge", "period"],
          ["period", "recipient", "pledge", "pledge", "pledge", "funder_hash"]) := by
    decide +kernel
  obtain ⟨sk, hsk, hparts⟩ := Option.map_eq_some_iff.mp hshape
  obtain ⟨hname, hparts⟩ := Prod.mk.inj hparts
  obtain ⟨horder, hlabels⟩ := Prod.mk.inj hparts
  have hfirst : ∃ rest, silverscriptSkeletons = sk :: rest := by
    rw [silverscriptSkeletons, hsk]
    exact ⟨_, List.reduceOption_cons_of_some sk _⟩
  obtain ⟨rest, hlist⟩ := hfirst
  exact ⟨sk, rest, hlist, hname, (derive_law hsk).emits, horder, hlabels⟩

section

variable (recipient funder : Bytes32) (pledge period : Bytes)

/-- The form's arguments are emitted. -/
theorem mecenas_emits : ∃ program,
    emitFromSkeleton MECENAS (mecenasArgs recipient funder pledge period) = some program := by
  obtain ⟨sk, rest, hlist, hname, hemits, -, hlabels⟩ := mecenas_skeleton
  rw [emitFromSkeleton_eq, hlist, List.find?_cons_of_pos (by rw [hname]; exact decide_eq_true rfl)]
  refine hemits.total _ fun label hlabel ↦ ?_
  rw [hlabels] at hlabel
  simp only [List.mem_cons, List.not_mem_nil, or_false] at hlabel
  rcases hlabel with rfl | rfl | rfl | rfl | rfl | rfl
  · exact ⟨period, by simp [mecenasArgs]⟩
  · exact ⟨recipient.val, by simp [mecenasArgs]⟩
  · exact ⟨pledge, by simp [mecenasArgs]⟩
  · exact ⟨pledge, by simp [mecenasArgs]⟩
  · exact ⟨pledge, by simp [mecenasArgs]⟩
  · exact ⟨funder.val, by simp [mecenasArgs]⟩

variable {recipient funder pledge period}

/-- What the form emits is decoded as the template with its arguments. -/
theorem mecenas_decodes (fixture : String → Bytes) {program : Bytes} (hpledge : Fits32 pledge)
    (hperiod : Fits32 period)
    (h : emitFromSkeleton MECENAS (mecenasArgs recipient funder pledge period) = some program) :
    (defaultRegistry fixture).decode 0 program =
      ⟨some MECENAS, mecenasFields recipient funder pledge period⟩ := by
  obtain ⟨sk, rest, hlist, hname, hemits, horder, hlabels⟩ := mecenas_skeleton
  rw [emitFromSkeleton_eq, hlist,
    List.find?_cons_of_pos (by rw [hname]; exact decide_eq_true rfl)] at h
  have hfits : ∀ e ∈ mecenasArgs recipient funder pledge period, Fits32 e.2 := by
    have hkey : ∀ b : Bytes32, Fits32 b.val := fun b ↦ by
      rw [Fits32, b.property]
      decide
    intro e he
    simp only [mecenasArgs, List.mem_cons, List.not_mem_nil, or_false] at he
    rcases he with rfl | rfl | rfl | rfl
    · exact hkey recipient
    · exact hkey funder
    · exact hpledge
    · exact hperiod
  obtain ⟨hwhole, hmatch⟩ := hemits.matched _ _ hfits h
  have hassigned : sk.assigned (mecenasArgs recipient funder pledge period) =
      mecenasFields recipient funder pledge period := by
    rw [Skeleton.assigned, horder, hlabels]
    rfl
  have htemplate : templateDecode (defaultRegistry fixture) program =
      some ⟨some MECENAS, mecenasFields recipient funder pledge period⟩ := by
    unfold templateDecode
    dsimp only
    rw [hwhole, if_neg Bool.false_ne_true]
    rw [defaultRegistry, hlist, List.cons_append, List.findSome?_cons, hmatch, hassigned, hname]
    rfl
  rw [Registry.decode, htemplate]
  rfl

end

end Kascov
