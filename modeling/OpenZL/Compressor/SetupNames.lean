import Mathlib.Data.List.Dedup
import OpenZL.Compressor.ComponentSetup

/-!
# The names of a serialized compressor

The first description under each name is the one that counts: `described` lists these.

* `find?_described`, `not_mem_described` — what `described` lists.
* `Names.Fits` — a table has no more entries than the names it can hold.
* `Mirrors.find_ok`, `Mirrors.find_error` — lookups are those of a resolver.
* `visitNew_visits` — a traversal of setups follows the resolver when each setup does.
-/

namespace OpenZL.Compressor.Setup

open Lib NamedTable
open Shared.A1cbor (Item)

section Maps

variable {map : A1C_Map} {pair : Pair} {key : Name}

/-- The name a pair is described under. -/
def pairName (pair : Pair) : Name := (itemString pair.1).getD []

/-- The names a map describes. -/
def describedNames (map : A1C_Map) : List Name :=
  (map.filterMap fun pair => itemString pair.1).dedup

/-- The first pair under each of them. -/
def described (map : A1C_Map) : List Pair := (describedNames map).filterMap (A1C_Map_get map)

theorem itemString_eq_some {item : Item} {name : Name} :
    itemString item = some name ↔ tryGetString (some item) = .ok name := by
  unfold itemString tryGetString
  cases item <;> simp

theorem A1C_Map_get_some (h : A1C_Map_get map key = some pair) :
    pair ∈ map ∧ itemString pair.1 = some key :=
  ⟨List.mem_of_find?_eq_some h, by simpa using List.find?_some h⟩

theorem A1C_Map_get_isSome (hpair : pair ∈ map) (hkey : itemString pair.1 = some key) :
    (A1C_Map_get map key).isSome := by
  rw [A1C_Map_get, List.find?_isSome]
  exact ⟨pair, hpair, by simpa using hkey⟩

theorem mem_describedNames : key ∈ describedNames map ↔ (A1C_Map_get map key).isSome := by
  simp only [describedNames, List.mem_dedup, List.mem_filterMap]
  constructor
  · rintro ⟨pair, hpair, hkey⟩
    exact A1C_Map_get_isSome hpair hkey
  · intro h
    obtain ⟨pair, hpair⟩ := Option.isSome_iff_exists.1 h
    exact ⟨pair, A1C_Map_get_some hpair⟩

theorem mem_described : pair ∈ described map ↔
    itemString pair.1 = some (pairName pair) ∧ A1C_Map_get map (pairName pair) = some pair := by
  simp only [described, List.mem_filterMap]
  constructor
  · rintro ⟨key, -, h⟩
    have hkey : pairName pair = key := by rw [pairName, (A1C_Map_get_some h).2, Option.getD_some]
    rw [hkey]
    exact ⟨(A1C_Map_get_some h).2, h⟩
  · rintro ⟨-, h⟩
    exact ⟨_, mem_describedNames.2 (by simp [h]), h⟩

theorem described_names (map : A1C_Map) : (described map).map pairName = describedNames map := by
  have hall : ∀ names : List Name, (∀ key ∈ names, (A1C_Map_get map key).isSome) →
      (names.filterMap (A1C_Map_get map)).map pairName = names := by
    intro names
    induction names with
    | nil => exact fun _ => rfl
    | cons key names ih =>
      intro h
      obtain ⟨pair, hpair⟩ := Option.isSome_iff_exists.1 (h key (by simp))
      have hkey : pairName pair = key := by
        rw [pairName, (A1C_Map_get_some hpair).2, Option.getD_some]
      rw [List.filterMap_cons_some hpair, List.map_cons, hkey,
        ih fun key' hkey' => h key' (by simp [hkey'])]
  exact hall _ fun key hkey => mem_describedNames.1 hkey

theorem nodup_described (map : A1C_Map) : ((described map).map pairName).Nodup := by
  rw [described_names]
  exact List.nodup_dedup _

theorem find?_described (map : A1C_Map) (key : Name) :
    ((described map).find? fun pair => decide (pairName pair = key)) = A1C_Map_get map key := by
  cases h : A1C_Map_get map key with
  | none =>
    rw [List.find?_eq_none]
    intro pair hpair hkey
    have hget := (mem_described.1 hpair).2
    rw [of_decide_eq_true hkey, h] at hget
    cases hget
  | some pair =>
    have hkey : pairName pair = key := by
      rw [pairName, (A1C_Map_get_some h).2, Option.getD_some]
    have hmem : pair ∈ described map :=
      mem_described.2 ⟨by rw [hkey, (A1C_Map_get_some h).2], by rw [hkey, h]⟩
    cases hf : (described map).find? fun pair => decide (pairName pair = key) with
    | none => exact absurd hkey (by simpa using List.find?_eq_none.1 hf pair hmem)
    | some pair' =>
      have hkey' : pairName pair' = key := by simpa using List.find?_some hf
      have hget := (mem_described.1 (List.mem_of_find?_eq_some hf)).2
      rw [hkey', h] at hget
      exact hget.symm

theorem not_mem_described {before after : A1C_Map} (h : map = before ++ pair :: after)
    (hpair : pair ∉ described map) :
    itemString pair.1 = none ∨
      (∃ other ∈ before, pairName other = pairName pair) ∧
        itemString pair.1 = some (pairName pair) := by
  cases hkey : itemString pair.1 with
  | none => exact .inl rfl
  | some key =>
    have hname : pairName pair = key := by rw [pairName, hkey, Option.getD_some]
    refine .inr ⟨?_, by rw [hname]⟩
    have hhead : (pair :: after).find? (fun pair => decide (itemString pair.1 = some key)) =
        some pair := by simp [hkey]
    cases hbefore : before.find? fun pair => decide (itemString pair.1 = some key) with
    | some other =>
      refine ⟨other, List.mem_of_find?_eq_some hbefore, ?_⟩
      have hother : itemString other.1 = some key := by simpa using List.find?_some hbefore
      rw [hname, pairName, hother, Option.getD_some]
    | none =>
      refine absurd (mem_described.2 ⟨by rw [hname, hkey], ?_⟩) hpair
      rw [hname, A1C_Map_get, h, List.find?_append, hbefore, hhead]
      rfl

/-- The described names, and those their descriptions refer to. -/
def namesOf (map : A1C_Map) (refs : Pair → List Name) : List Name :=
  (described map).flatMap fun pair => pairName pair :: refs pair

/-- The number of rounds a traversal takes at most. -/
def rounds (map : A1C_Map) (refs : Pair → List Name) : Nat :=
  map.length + ((described map).map fun pair => 1 + (refs pair).length).sum + 1

theorem length_namesOf (map : A1C_Map) (refs : Pair → List Name) :
    (namesOf map refs).length < rounds map refs := by
  simp only [namesOf, rounds, List.length_flatMap, List.length_cons, Nat.add_comm _ 1]
  omega

theorem mem_namesOf {refs : Pair → List Name} (hpair : pair ∈ described map) :
    ∀ d ∈ pairName pair :: refs pair, d ∈ namesOf map refs :=
  fun _ hd => List.mem_flatMap.2 ⟨pair, hpair, hd⟩

theorem length_refs_lt {refs : Pair → List Name} (hpair : pair ∈ described map) :
    (refs pair).length < (namesOf map refs).length := by
  have hsub : (pairName pair :: refs pair).Sublist (namesOf map refs) :=
    List.sublist_flatten_of_mem (List.mem_map_of_mem hpair)
  exact hsub.length_le

end Maps

section Names

variable {ι γ σ : Type} {R : Resolver Name Pair γ σ Stop} {s : σ} {names names' : Names}
  {find : Name → Option γ} {map : A1C_Map} {key : Name}

/-- The resolver looks names up where `findIfNeedsSetup_generic` does. -/
structure Mirrors (R : Resolver Name Pair γ σ Stop) (s : σ) (find : Name → Option γ)
    (map : A1C_Map) : Prop where
  existing : R.existing s = find
  lookup : ∀ key, R.lookup key = A1C_Map_get map key
  cycle : R.cycle = .cycle
  dangling : R.dangling = .dangling
  missing : R.missing = .missing

theorem insert_ok {val val' : Option Name} {inserted : Bool}
    (h : names.insert key val = .ok (names', val', inserted)) :
    (∃ old, names.map key = some old ∧ names' = names ∧ val' = old ∧ inserted = false) ∨
      names.map key = none ∧ names'.map = Function.update names.map key (some val) ∧
        val' = val ∧ inserted = true := by
  unfold Names.insert at h
  split at h
  · cases h
  · split at h
    · rename_i old hold
      cases h
      exact .inl ⟨_, hold, rfl, rfl, rfl⟩
    · rename_i hnone
      cases h
      exact .inr ⟨hnone, rfl, rfl, rfl⟩

theorem insert_error {val : Option Name} {e : Stop} (h : names.insert key val = .error e) :
    e = .allocation ∧ ZL_ENCODER_GRAPH_LIMIT ≤ names.size := by
  unfold Names.insert at h
  split at h
  · rename_i hfull
    cases h
    exact ⟨rfl, hfull⟩
  · split at h <;> cases h

/-- A table of names from `B` has no more entries than names. -/
def Names.Fits (B : List Name) (names : Names) : Prop :=
  names.size ≤ B.countP fun key => (names.map key).isSome

theorem countP_le_update (B : List Name) (m : NameMap Name) (key : Name) (val : Option Name) :
    (B.countP fun k => (m k).isSome) ≤
      B.countP fun k => (Function.update m key (some val) k).isSome := by
  refine List.countP_mono_left fun k _ hk => ?_
  rw [Function.update_apply]
  split
  · rfl
  · exact hk

theorem countP_lt_update {B : List Name} {m : NameMap Name} {val : Option Name} (hkey : key ∈ B)
    (hnone : m key = none) : (B.countP fun k => (m k).isSome) <
      B.countP fun k => (Function.update m key (some val) k).isSome := by
  obtain ⟨before, after, rfl⟩ := List.append_of_mem hkey
  have hbefore := countP_le_update before m key val
  have hafter := countP_le_update after m key val
  simp [List.countP_append, hnone]
  omega

variable {B : List Name}

theorem Names.Fits.le (h : names.Fits B) : names.size ≤ B.length := h.trans List.countP_le_length

theorem Names.Fits.append (h : names.Fits B) (B' : List Name) : names.Fits (B ++ B') := by
  rw [Names.Fits, List.countP_append]
  exact h.trans (Nat.le_add_right _ _)

theorem Names.Fits.insert {val val' : Option Name} {inserted : Bool} (hfits : names.Fits B)
    (hkey : key ∈ B) (h : names.insert key val = .ok (names', val', inserted)) :
    names'.Fits B := by
  unfold Names.insert at h
  split at h
  · cases h
  · split at h
    · cases h
      exact hfits
    · rename_i hnone
      cases h
      exact Nat.lt_of_le_of_lt hfits (countP_lt_update hkey hnone)

theorem Names.Fits.complete {new : Name} (hfits : names.Fits B)
    (h : names.complete key new = .ok names') : names'.Fits B := by
  unfold Names.complete at h
  split at h
  · cases h
  · cases h
    exact hfits.trans (countP_le_update B names.map key (some new))

theorem enqueuePending_ok {pending pending' : List Pair} {pair : Pair}
    (h : enqueuePending pending pair = .ok pending') : pending' = pair :: pending := by
  unfold enqueuePending at h
  split at h
  · cases h
  · cases h
    rfl

theorem enqueuePending_error {pending : List Pair} {pair : Pair} {e : Stop}
    (h : enqueuePending pending pair = .error e) :
    e = .allocation ∧ ZL_ENCODER_GRAPH_LIMIT ≤ pending.length := by
  unfold enqueuePending at h
  split at h
  · rename_i hfull
    cases h
    exact ⟨rfl, hfull⟩
  · cases h

/-- **A lookup is that of the resolver**, unless the map of names is full. -/
theorem Mirrors.find_ok (hR : Mirrors R s find map) {found : Pair ⊕ γ}
    (h : findIfNeedsSetup_generic find map names key = .ok (names', found)) :
    R.resolve s names.map key = .ok (names'.map, found) := by
  unfold findIfNeedsSetup_generic at h
  unfold Resolver.resolve
  rw [hR.lookup]
  simp only [hR.existing]
  cases hmark : names.map key with
  | some mark =>
    cases mark with
    | none =>
      rw [hmark] at h
      cases h
    | some new =>
      cases hid : find new with
      | none =>
        simp only [hmark, hid] at h
        cases h
      | some id =>
        simp only [hmark, hid] at h
        cases h
        simp only [hid]
  | none =>
    cases hpair : A1C_Map_get map key with
    | some pair =>
      simp only [hmark, hpair] at h
      cases h
      rfl
    | none =>
      cases hid : find key with
      | none =>
        simp only [hmark, hpair, hid] at h
        cases h
      | some id =>
        simp only [hmark, hpair, hid] at h
        obtain ⟨⟨names₁, val, inserted⟩, hins, h⟩ := bind_eq_ok.1 h
        obtain ⟨_, -, h⟩ := bind_eq_ok.1 h
        cases h
        rcases insert_ok hins with ⟨old, hold, -⟩ | ⟨-, hmap, -⟩
        · simp [hmark] at hold
        · rw [hmap]

theorem find_fits {found : Pair ⊕ γ} (hfits : names.Fits B) (hkey : key ∈ B)
    (h : findIfNeedsSetup_generic find map names key = .ok (names', found)) : names'.Fits B := by
  unfold findIfNeedsSetup_generic at h
  split at h
  · cases h
  · split at h
    · cases h
    · cases h
      exact hfits
  · split at h
    · cases h
      exact hfits
    · split at h
      · cases h
      · obtain ⟨⟨names₁, val, inserted⟩, hins, h⟩ := bind_eq_ok.1 h
        obtain ⟨_, -, h⟩ := bind_eq_ok.1 h
        cases h
        exact hfits.insert hkey hins

theorem Mirrors.find_error (hR : Mirrors R s find map) {e : Stop}
    (h : findIfNeedsSetup_generic find map names key = .error e) :
    (e = .allocation ∧ ZL_ENCODER_GRAPH_LIMIT ≤ names.size) ∨
      R.resolve s names.map key = .error e := by
  unfold findIfNeedsSetup_generic at h
  unfold Resolver.resolve
  rw [hR.lookup, hR.cycle, hR.dangling, hR.missing]
  simp only [hR.existing]
  cases hmark : names.map key with
  | some mark =>
    right
    cases mark with
    | none =>
      rw [hmark] at h
      cases h
      rfl
    | some new =>
      cases hid : find new with
      | none =>
        simp only [hmark, hid] at h
        cases h
        simp only [hid]
      | some id =>
        simp only [hmark, hid] at h
        cases h
  | none =>
    cases hpair : A1C_Map_get map key with
    | some pair =>
      simp only [hmark, hpair] at h
      cases h
    | none =>
      cases hid : find key with
      | none =>
        right
        simp only [hmark, hpair, hid] at h
        cases h
        rfl
      | some id =>
        left
        simp only [hmark, hpair, hid] at h
        cases hins : names.insert key (some key) with
        | error e' =>
          rw [hins] at h
          cases h
          exact insert_error hins
        | ok r =>
          obtain ⟨names₁, val, inserted⟩ := r
          rcases insert_ok hins with ⟨old, hold, -⟩ | ⟨-, -, -, rfl⟩
          · simp [hmark] at hold
          · rw [hins] at h
            cases h

end Names

theorem placeholder_ok {names names' : Names} {key : Name} {val : Option Name} {inserted : Bool}
    (h : names.insert key none = .ok (names', val, inserted)) :
    (∃ new, names.map key = some (some new) ∧ val = some new ∧ names' = names) ∨
      ¬Resolver.Resolved names.map key ∧ val = none ∧
        names'.map = Function.update names.map key (some none) ∧
        (names.map key = none ↔ inserted = true) := by
  rcases insert_ok h with ⟨old, hold, rfl, rfl, rfl⟩ | ⟨hnone, hmap, rfl, rfl⟩
  · cases val' : val with
    | some new => exact .inl ⟨new, by rw [hold, val'], rfl, rfl⟩
    | none =>
      subst val'
      refine .inr ⟨Resolver.not_resolved_of_mark hold, rfl, ?_, by simp [hold]⟩
      rw [eq_comm, Function.update_eq_self_iff, hold]
  · refine .inr ⟨?_, rfl, hmap, by simp [hnone]⟩
    rintro ⟨new, hnew⟩
    simp [hnone] at hnew

/-- The result of a visit of the traversal, against that of a visit of the resolver; `Inv` holds
again. -/
def Simulates {σ : Type} (nm : State → NameMap Name) (env : State → σ) (Inv : State → Prop)
    (fault : Stop → Prop) (pending : List Pair) (result : Except Stop (List Pair × State))
    (visited : Except Stop (NameMap Name × σ × List Pair)) : Prop :=
  match result with
  | .ok (pending', st) => Inv st ∧
    ∃ pushed, pending' = pushed ++ pending ∧ visited = .ok (nm st, env st, pushed)
  | .error e => fault e ∨ visited = .error e

section Placeholder

variable {γ σ : Type} {R : Resolver Name Pair γ σ Stop} {map : A1C_Map} {get : State → Names}
  {put : State → Names → State} {env : State → σ} {Inv : State → Prop} {B : List Name}
  {room : Nat} {fault : Pair → Stop → Prop}
  {setup : Pair → Name → A1C_Map → Bool → List Pair → State → Except Stop (List Pair × State)}

/-- **A traversal of setups follows the resolver** when each setup does. -/
theorem visitNew_visits (hitems : R.items = described map) (hkey : R.key = pairName)
    (hput : ∀ st names, get (put st names) = names ∧ env (put st names) = env st)
    (hinv : ∀ st, Inv st → (get st).Fits B ∧ ∀ names : Names, names.Fits B → Inv (put st names))
    (hnames : ∀ pair ∈ described map, pairName pair ∈ B)
    (halloc : ∀ pair, ZL_ENCODER_GRAPH_LIMIT ≤ B.length → fault pair .allocation)
    (hmalformed : ∀ pair code,
      (itemString pair.1 = none ∨ ∀ val_map, tryGetMap (some pair.2) ≠ .ok val_map) →
      fault pair (.malformed code))
    (hsetup : ∀ pair pending names val_map inserted st, pair ∈ described map →
      pending.length + 1 < room → Inv st → tryGetMap (some pair.2) = .ok val_map →
      ¬Resolver.Resolved names (pairName pair) →
      (get st).map = Function.update names (pairName pair) (some none) →
      (names (pairName pair) = none ↔ inserted = true) →
      Simulates (fun st => (get st).map) env Inv (fault pair) pending
        (setup pair (pairName pair) val_map inserted pending st) (R.visit pair names (env st))) :
    R.Visits (visitPair (visitNew get put setup)) (fun st => (get st).map) env Inv room fault
      map := by
  have hfull : ∀ pair st e val, Inv st → (get st).insert (pairName pair) val = .error e →
      fault pair e := by
    intro pair st e val hst hins
    obtain ⟨rfl, hsize⟩ := insert_error hins
    exact halloc pair (hsize.trans (hinv st hst).1.le)
  have hsim : ∀ pair ∈ R.items, ∀ pending st, pending.length + 1 < room → Inv st →
      Simulates (fun st => (get st).map) env Inv (fault pair) pending
        (visitPair (visitNew get put setup) pair pending st)
        (R.visit pair (get st).map (env st)) := by
    intro pair hpair pending st hroom hst
    rw [hitems] at hpair
    simp only [visitPair, visitNew, itemString_eq_some.1 (mem_described.1 hpair).1, readable,
      ok_bind]
    cases hval : tryGetMap (some pair.2) with
    | error code => exact .inl (hmalformed pair code (.inr (by simp [hval])))
    | ok val_map =>
      simp only [ok_bind]
      cases hins : (get st).insert (pairName pair) none with
      | error e => exact .inl (hfull pair st e none hst hins)
      | ok r =>
        obtain ⟨names, val, inserted⟩ := r
        have hst' := (hinv st hst).2 names ((hinv st hst).1.insert (hnames pair hpair) hins)
        rcases placeholder_ok hins with ⟨new, hnew, rfl, rfl⟩ | ⟨hnot, rfl, hmap, hnone⟩
        · refine ⟨hst, [], rfl, ?_⟩
          unfold Resolver.visit
          rw [hkey, hnew]
        · obtain ⟨hget, henv⟩ := hput st names
          rw [← henv]
          exact hsetup pair pending _ val_map inserted _ hpair hroom hst' hval hnot
            (by rw [hget, hmap]) hnone
  constructor
  · intro pair hpair
    rw [hitems] at hpair
    exact (A1C_Map_get_some (mem_described.1 hpair).2).1
  · intro pair pending st pending' st' hpair hroom hst h
    have hsim := hsim pair hpair pending st hroom hst
    rw [h] at hsim
    exact hsim
  · intro pair pending st e hpair hroom hst h
    have hsim := hsim pair hpair pending st hroom hst
    rw [h] at hsim
    exact hsim
  · intro before pair after hall hpair
    rw [hitems] at hpair
    rw [hkey]
    rcases not_mem_described hall hpair with hnone | ⟨hearlier, hname⟩
    · refine .inl fun pending st => ?_
      cases hread : tryGetString (some pair.1) with
      | ok name => simp [itemString_eq_some.2 hread] at hnone
      | error code =>
        exact ⟨.malformed code, by simp [visitPair, hread, readable],
          hmalformed pair code (.inl hnone)⟩
    · refine .inr ⟨hearlier, fun pending st hst hres => ?_⟩
      -- a second description of a resolved name is read as far as its map, then dropped
      simp only [visitPair, visitNew, itemString_eq_some.1 hname, readable, ok_bind]
      cases hval : tryGetMap (some pair.2) with
      | error code => exact .inr ⟨_, rfl, hmalformed pair code (.inr (by simp [hval]))⟩
      | ok val_map =>
        simp only [ok_bind]
        cases hins : (get st).insert (pairName pair) none with
        | error e => exact .inr ⟨e, rfl, hfull pair st e none hst hins⟩
        | ok r =>
          obtain ⟨names, val, inserted⟩ := r
          rcases placeholder_ok hins with ⟨new, -, rfl, rfl⟩ | ⟨hnot, -⟩
          · exact .inl rfl
          · exact absurd hres hnot

end Placeholder

/-- The component a name is resolved to. -/
def resolvedComponent {γ : Type} (find_existing : Name → Option γ) (names : NameMap Name)
    (name : Name) : Except Stop γ :=
  match names name with
  | some (some new) =>
    match find_existing new with
    | none => .error .dangling
    | some id => .ok id
  | _ => .error (.notSetUp .corruption)

theorem resolvedComponent_eq {γ : Type} {find : Name → Option γ} {names : NameMap Name}
    {name new : Name} {id : γ} (h : names name = some (some new)) (hid : find new = some id) :
    resolvedComponent find names name = .ok id := by
  simp only [resolvedComponent, h, hid]

theorem accepted_error {α : Type} {x : Except ErrorCode α} {e : Stop}
    (h : accepted x = .error e) : ∃ code, e = .refused code := by
  cases x with
  | error code =>
    cases h
    exact ⟨code, rfl⟩
  | ok a => cases h

theorem accepted_ok {α : Type} {x : Except ErrorCode α} {a : α} (h : accepted x = .ok a) :
    x = .ok a := by
  cases x with
  | error code => cases h
  | ok b =>
    cases h
    rfl

end OpenZL.Compressor.Setup
