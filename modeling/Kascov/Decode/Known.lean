import Kascov.Decode.Observed
import Kascov.Web.Generator

/-!
# The templates that are known

The registry as it is built: the examples of SilverScript, each compiled twice with sentinel
arguments, and the families observed on the chain.  The fixture files of the families are a
parameter.
-/

namespace Kascov

/-! ## The dumps -/

/-- The bytes of a number, the high one first. -/
def hexRow (length n : Nat) : Bytes :=
  (List.range length).map fun i ↦ UInt8.ofNat (n / 256 ^ (length - 1 - i))

/-- A dump of a length, in rows of 32 bytes. -/
def hexDump : Nat → List Nat → Bytes
  | _, [] => []
  | length, row :: rows => hexRow (min 32 length) row ++ hexDump (length - 32) rows

def SENT_A32 : Bytes := List.replicate 32 0x11

def SENT_B32 : Bytes := List.replicate 32 0x22

def SENT_C32 : Bytes := List.replicate 32 0x33

def SENT_D32 : Bytes := List.replicate 32 0x44

def MECENAS_A : Bytes :=
  hexDump 181
    [0x6b6c76009c637502e803b100c320111111111111111111111111111111111111,
     0x1111111111111111111111111111030000207c7e01ac7e876902e803b9be7604,
     0x00e1f50594527994760400e1f505547993a16300c252795479949c696700c204,
     0x00e1f5059c6951c3b9bf876951c2789c6968007a75007a75007a75516776519c,
     0x637578aa20333333333333333333333333333333333333333333333333333333,
     0x33333333338769765279ac69757551677500696868]

def MECENAS_B : Bytes :=
  hexDump 181
    [0x6b6c76009c637502d007b100c320222222222222222222222222222222222222,
     0x2222222222222222222222222222030000207c7e01ac7e876902e803b9be7604,
     0x80b2e60e94527994760480b2e60e547993a16300c252795479949c696700c204,
     0x80b2e60e9c6951c3b9bf876951c2789c6968007a75007a75007a75516776519c,
     0x637578aa20444444444444444444444444444444444444444444444444444444,
     0x44444444448769765279ac69757551677500696868]

def ESCROW_A : Bytes :=
  hexDump 147
    [0x78aa203333333333333333333333333333333333333333333333333333333333,
     0x3333338769765279ac6900c2b9be02e803949c6900c320111111111111111111,
     0x1111111111111111111111111111111111111111111111030000207c7e01ac7e,
     0x8700c32022222222222222222222222222222222222222222222222222222222,
     0x22222222030000207c7e01ac7e879b69757551]

def ESCROW_B : Bytes :=
  hexDump 147
    [0x78aa204444444444444444444444444444444444444444444444444444444444,
     0x4444448769765279ac6900c2b9be02e803949c6900c320222222222222222222,
     0x2222222222222222222222222222222222222222222222030000207c7e01ac7e,
     0x8700c32011111111111111111111111111111111111111111111111111111111,
     0x11111111030000207c7e01ac7e879b69757551]

def LASTWILL_A : Bytes :=
  hexDump 181
    [0x6b6c76009c637502b400b178aa20333333333333333333333333333333333333,
     0x33333333333333333333333333338769765279ac697575516776519c637578aa,
     0x2044444444444444444444444444444444444444444444444444444444444444,
     0x448769765279ac697575516776529c637578aa20111111111111111111111111,
     0x11111111111111111111111111111111111111118769765279ac6900c2b9be02,
     0xe803949c6900c3b9bf876975755167750069686868]

def LASTWILL_B : Bytes :=
  hexDump 181
    [0x6b6c76009c637502b400b178aa20444444444444444444444444444444444444,
     0x44444444444444444444444444448769765279ac697575516776519c637578aa,
     0x2033333333333333333333333333333333333333333333333333333333333333,
     0x338769765279ac697575516776529c637578aa20222222222222222222222222,
     0x22222222222222222222222222222222222222228769765279ac6900c2b9be02,
     0xe803949c6900c3b9bf876975755167750069686868]

/-! ## The skeletons -/

/-- `silverscript_skeletons`. -/
def silverscriptSkeletons : List Skeleton :=
  [Skeleton.derive "SilverScript · Mecenas" MECENAS_A MECENAS_B
      [("recipient", SENT_A32), ("funder_hash", SENT_C32),
        ("pledge", snum ⟨100000000, by decide⟩), ("period", snum ⟨1000, by decide⟩)],
    Skeleton.derive "SilverScript · Escrow" ESCROW_A ESCROW_B
      [("arbiter_hash", SENT_C32), ("buyer", SENT_A32), ("seller", SENT_B32)],
    Skeleton.derive "SilverScript · LastWill" LASTWILL_A LASTWILL_B
      [("inheritor_hash", SENT_C32), ("cold_hash", SENT_D32), ("hot_hash", SENT_A32)]].reduceOption

/-- `observed_skeletons`, with the fixture files. -/
def observedSkeletons (fixture : String → Bytes) : List Skeleton :=
  [Skeleton.deriveObserved "PURE" [fixture "pure_a", fixture "pure_b"] ["signer_pubkey"],
    Skeleton.deriveObserved "genesis0 · list" [fixture "g0_list_v1_a", fixture "g0_list_v1_b"]
      ["state_hash_a", "state_hash_b", "state_hash_c", "min_amount", "next_state_template"],
    Skeleton.deriveObserved "genesis0 · buy" [fixture "g0_buy_v1_a", fixture "g0_buy_v1_b"]
      ["state_amount", "state_hash_a", "state_hash_b", "min_amount", "output_spk_hash_a",
        "output_amount", "output_spk_hash_b"],
    Skeleton.deriveObserved "genesis0 · list" [fixture "g0_list_v2_a", fixture "g0_list_v2_b"]
      ["witness_hash", "output_spk_hash", "salt_a", "salt_b"],
    Skeleton.deriveObserved "genesis0 · buy" [fixture "g0_buy_v2_a", fixture "g0_buy_v2_b"]
      ["output_spk_hash", "price", "witness_hash", "salt"],
    Skeleton.deriveObserved "genesis0 · collection" [fixture "g0_col_a", fixture "g0_col_b"]
      ["amount_step"],
    Skeleton.deriveObserved "KCC20 token" [fixture "kcc20_a_a", fixture "kcc20_a_b"]
      ["owner_identifier", "identifier_type", "amount", "is_minter"],
    Skeleton.deriveObserved "KCC20 token" [fixture "kcc20_b_a", fixture "kcc20_b_b"]
      ["owner_identifier", "identifier_type", "amount", "is_minter"],
    Skeleton.deriveObserved "KCC20 token" [fixture "kcc20_c_a", fixture "kcc20_c_b"]
      ["owner_identifier", "identifier_type", "amount", "is_minter"],
    Skeleton.deriveObserved "KCC20 minter" [fixture "kcc20_minter_a", fixture "kcc20_minter_b"]
      ["kcc20_covenant_a", "kcc20_covenant_b"]].reduceOption

/-- `observed_repeat_skeletons`, with the fixture files. -/
def observedRepeatSkeletons (fixture : String → Bytes) : List RepeatTemplate :=
  [RepeatTemplate.derive "genesis0 · slot-mint"
      [fixture "slot_mint_di4m_a", fixture "slot_mint_di4m_b"]
      [fixture "slot_mint_gz4m_a", fixture "slot_mint_gz4m_b"]
      ["min_outputs", "lane_tag", "payload_hash_a", "payload_hash_b", "payload_len_a",
        "payload_len_b", "instance_salt"]
      ["output_index", "output_amount", "output_index", "output_spk_hash"]].reduceOption

/-- `Registry::default`. -/
def defaultRegistry (fixture : String → Bytes) : Registry where
  skeletons := silverscriptSkeletons ++ observedSkeletons fixture
  repeats := (observedRepeatSkeletons fixture).map (·.registered)

/-! ## What is recognised -/

/-- The names of the examples of SilverScript. -/
def silverscriptNames : List String :=
  ["SilverScript · Mecenas", "SilverScript · Escrow", "SilverScript · LastWill"]

/-- The skeleton of a name. -/
def templateNamed (registry : Registry) (name : String) : Option Skeleton :=
  registry.skeletons.find? (·.name = name)

theorem deriveObserved_name {name : String} {instances : List Bytes} {labels : List String}
    {sk : Skeleton} (h : Skeleton.deriveObserved name instances labels = some sk) :
    sk.name = name := by
  unfold Skeleton.deriveObserved at h
  split at h
  · cases h
  · split at h
    · cases h
    · dsimp only at h
      split at h
      · cases h
      · split at h
        · cases h
        · rw [← Option.some.inj h]

theorem observed_names {fixture : String → Bytes} {sk : Skeleton}
    (h : sk ∈ observedSkeletons fixture) : sk.name ∉ silverscriptNames := by
  rw [observedSkeletons, List.reduceOption_mem_iff] at h
  simp only [List.mem_cons, List.not_mem_nil, or_false] at h
  rcases h with h | h | h | h | h | h | h | h | h | h <;>
    · rw [deriveObserved_name h.symm]
      decide

theorem observedRepeat_names {fixture : String → Bytes} {s : RepeatSkeleton}
    (h : s ∈ (defaultRegistry fixture).repeats) : s.name ∉ silverscriptNames := by
  obtain ⟨t, ht, rfl⟩ := List.mem_map.mp h
  rw [observedRepeatSkeletons, List.reduceOption_mem_iff, List.mem_singleton] at ht
  have hname : t.registered.name = "genesis0 · slot-mint" := (repeatDerive_eq_some ht.symm).1
  rw [hname]
  decide

/-- The examples have names of their own. -/
theorem silverscript_names : silverscriptSkeletons.map (·.name) = silverscriptNames := by
  decide +kernel

/-- A script that is recognised as an example is whole and matches the skeleton of that
name. -/
theorem silverscript_recognised {fixture : String → Bytes} {version : Nat} {script : Bytes}
    {name : String}
    (h : ((defaultRegistry fixture).decode version script).template = some name)
    (hname : name ∈ silverscriptNames) :
    ∃ sk ∈ silverscriptSkeletons, sk.name = name ∧
      templateNamed (defaultRegistry fixture) name = some sk ∧
      (disassemble script).2 = false ∧ sk.matchScript (disassemble script).1 =
        some ((defaultRegistry fixture).decode version script).fields := by
  have hdecode := templateDecode_of_template h (fun heq ↦ absurd hname (by rw [heq]; decide))
    fun heq ↦ absurd hname (by rw [heq]; decide)
  obtain ⟨hwhole, ⟨sk, hsk, htemplate, hmatch⟩ | ⟨s, hs, htemplate⟩⟩ :=
    templateDecode_eq_some hdecode
  · rw [h] at htemplate
    obtain rfl := Option.some.inj htemplate
    have hmem : sk ∈ silverscriptSkeletons :=
      (List.mem_append.mp hsk).resolve_right fun hobserved ↦ observed_names hobserved hname
    refine ⟨sk, hmem, rfl, ?_, hwhole, hmatch⟩
    have hnodup : (silverscriptSkeletons.map (·.name)).Nodup := by
      rw [silverscript_names]
      decide
    have hfound : silverscriptSkeletons.find? (·.name = sk.name) = some sk := by
      cases hfind : silverscriptSkeletons.find? (·.name = sk.name) with
      | none => exact absurd rfl (of_decide_eq_false (Bool.eq_false_iff.mpr
          (List.find?_eq_none.mp hfind sk hmem)))
      | some found =>
          have heq : found.name = sk.name := of_decide_eq_true (List.find?_some hfind :)
          rw [List.inj_on_of_nodup_map hnodup (List.mem_of_find?_eq_some hfind) hmem heq]
    rw [templateNamed, defaultRegistry, List.find?_append, hfound, Option.some_or]
  · rw [h] at htemplate
    exact absurd hname (Option.some.inj htemplate ▸ observedRepeat_names hs)

end Kascov
