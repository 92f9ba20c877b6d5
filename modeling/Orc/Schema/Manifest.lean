import Orc.Schema.Config
import Std.Data.ExtTreeMap

/-!
# The manifest: schema history and the flush watermark

Each series has a history of schema epochs, oldest first. `reconcile` folds a config into it: an
unchanged layout keeps its epoch (only `nullable` may be updated), a changed one gets the next
epoch, and a key may never change its type.

## What a history keeps

`HistoryOk` says that the epochs of a history are `0, 1, …` and that a key name has one type
throughout. `Frozen` relates a history to a later one: the layouts recorded are never altered, and
all but the newest entry stay as they are. `reconcile` establishes both for every series.
-/

namespace Orc

open Bytes

/-- One entry of a series' schema history. -/
structure EpochSchema where
  epoch : UInt32
  /-- Keys in positional order. -/
  keys : List KeyDef
  deriving DecidableEq, Repr

/-- The contents of `manifest.json`. -/
structure Manifest where
  /-- Per-series schema history, oldest first. -/
  series : Std.ExtTreeMap String (List EpochSchema) := {}
  /-- Segments up to this id are durable in Parquet. -/
  lastFlushedSegment : ℕ := 0
  /-- Last flush commit time, in epoch microseconds. -/
  lastFlushAt : Option ℕ := none
  deriving DecidableEq

/-- The history of a series, empty if it has none. -/
def Manifest.history (m : Manifest) (series : String) : List EpochSchema :=
  m.series.getD series []

/-- The names and types of a key list, in order: what decides how a frame is laid out. -/
def layout (keys : List KeyDef) : List (String × KeyType) := keys.map fun k ↦ (k.name, k.ty)

/-- Same length, and pairwise the same names and types. -/
def sameLayout (a b : List KeyDef) : Bool :=
  a.length == b.length && (a.zip b).all fun (x, y) ↦ x.name == y.name && x.ty == y.ty

/-- Reject a key whose type differs from any it has had in any epoch. -/
def checkNoRetype (series : String) (history : List EpochSchema) (keys : List KeyDef) :
    Except Error Unit :=
  match history.findSome? fun past ↦ past.keys.findSome? fun old ↦
    (keys.find? fun new ↦ new.name == old.name && new.ty != old.ty).map fun new ↦
      ConfigError.retyped series new.name old.ty past.epoch new.ty with
  | some e => .error (.config e)
  | none => .ok ()

/-- Fold one declared series into its history; the flag says whether anything changed. -/
def reconcileSeries (history : List EpochSchema) (s : SeriesConfig) :
    Except Error (List EpochSchema × Bool) :=
  match history.getLast? with
  | none => .ok (history ++ [⟨0, s.keys⟩], true)
  | some last =>
    if sameLayout last.keys s.keys then
      if last.keys ≠ s.keys then
        .ok (history.dropLast ++ [⟨last.epoch, s.keys⟩], true)
      else
        .ok (history, false)
    else if last.epoch.toNat = u32Max then
      .error (.config (.epochsExhausted s.name))
    else
      .ok (history ++ [⟨last.epoch + 1, s.keys⟩], true)

/-- The second loop of `reconcile`: fold the declared series in one by one. -/
def reconcileAll (m : Manifest) (changed : Bool) :
    List SeriesConfig → Except Error (Manifest × Bool)
  | [] => .ok (m, changed)
  | s :: rest => do
    let (history, c) ← reconcileSeries (m.history s.name) s
    reconcileAll { m with series := m.series.insert s.name history } (changed || c) rest

/-- The first loop of `reconcile`: no declared key may change its type. -/
def checkAllNoRetype (m : Manifest) : List SeriesConfig → Except Error Unit
  | [] => .ok ()
  | s :: rest => do
    checkNoRetype s.name (m.history s.name) s.keys
    checkAllNoRetype m rest

/-- Fold a config into the schema history. Returns the manifest and whether anything changed. -/
def Manifest.reconcile (m : Manifest) (config : Config) : Except Error (Manifest × Bool) := do
  checkAllNoRetype m config.series
  reconcileAll m false config.series

/-- The epoch new frames for this series must be stamped with. -/
def Manifest.currentEpoch (m : Manifest) (series : String) : Option UInt32 := do
  let history ← m.series[series]?
  let last ← history.getLast?
  return last.epoch

/-- Keys for an epoch of a series. -/
def Manifest.schema (m : Manifest) (series : String) (epoch : UInt32) : Option (List KeyDef) := do
  let history ← m.series[series]?
  let e ← history.find? fun e ↦ e.epoch == epoch
  return e.keys

/-! ## Layouts -/

theorem sameLayout_iff {a b : List KeyDef} : sameLayout a b = true ↔ layout a = layout b := by
  unfold sameLayout layout
  induction a generalizing b with
  | nil => cases b <;> simp
  | cons x a ih =>
    cases b with
    | nil => simp
    | cons y b =>
      simp only [List.length_cons, List.zip_cons_cons, List.all_cons, List.map_cons,
        List.cons.injEq, Prod.mk.injEq, ← ih, Bool.and_eq_true, beq_iff_eq,
          Nat.add_right_cancel_iff]
      tauto

/-- No declared key differs in type from a key of that name in the history. -/
theorem checkNoRetype_eq_ok_iff {series : String} {history : List EpochSchema}
    {keys : List KeyDef} : checkNoRetype series history keys = .ok () ↔
      ∀ past ∈ history, ∀ old ∈ past.keys, ∀ new ∈ keys, new.name = old.name →
        new.ty = old.ty := by
  unfold checkNoRetype
  split
  next e hsome =>
    refine ⟨fun h ↦ by simp at h, fun h ↦ ?_⟩
    obtain ⟨past, hpast, hsome⟩ := List.exists_of_findSome?_eq_some hsome
    obtain ⟨old, hold, hsome⟩ := List.exists_of_findSome?_eq_some hsome
    obtain ⟨new, hfind, -⟩ := Option.map_eq_some_iff.1 hsome
    have hbad := List.find?_some hfind
    simp only [Bool.and_eq_true, beq_iff_eq, bne_iff_ne] at hbad
    exact absurd (h past hpast old hold new (List.mem_of_find?_eq_some hfind) hbad.1) hbad.2
  next hnone =>
    refine ⟨fun _ past hpast old hold new hnew hname ↦ ?_, fun _ ↦ rfl⟩
    simp only [List.findSome?_eq_none_iff, Option.map_eq_none_iff, List.find?_eq_none] at hnone
    have := hnone past hpast old hold new hnew
    simpa [hname] using this

/-! ## Histories -/

/-- The epochs of a history are `0, 1, …`, and a key name has one type in all of them. -/
structure HistoryOk (h : List EpochSchema) : Prop where
  epochs : h.map (fun e ↦ e.epoch.toNat) = List.range h.length
  types : ∀ e ∈ h, ∀ e' ∈ h, ∀ k ∈ e.keys, ∀ k' ∈ e'.keys, k.name = k'.name → k.ty = k'.ty

/-- What of an entry never changes: its epoch and its layout. -/
def EpochSchema.frozen (e : EpochSchema) : UInt32 × List (String × KeyType) :=
  (e.epoch, layout e.keys)

/-- A later history: all recorded layouts are kept, and all entries but the newest stay as they
are. -/
structure Frozen (h h' : List EpochSchema) : Prop where
  layouts : h.map EpochSchema.frozen <+: h'.map EpochSchema.frozen
  older : h.dropLast <+: h'

theorem Frozen.refl (h : List EpochSchema) : Frozen h h :=
  ⟨List.prefix_rfl, List.dropLast_prefix h⟩

theorem Frozen.length_le {h h' : List EpochSchema} (hf : Frozen h h') : h.length ≤ h'.length := by
  have := hf.layouts.length_le
  rwa [List.length_map, List.length_map] at this

theorem Frozen.trans {h h' h'' : List EpochSchema} (hf : Frozen h h') (hf' : Frozen h' h'') :
    Frozen h h'' := by
  refine ⟨hf.layouts.trans hf'.layouts, ?_⟩
  have hle : h.dropLast.length ≤ h'.dropLast.length := by
    have := hf.length_le
    rw [List.length_dropLast, List.length_dropLast]
    omega
  exact (List.prefix_of_prefix_length_le hf.older (List.dropLast_prefix h') hle).trans hf'.older

theorem HistoryOk.epoch_eq {h : List EpochSchema} (hok : HistoryOk h) {i : ℕ} {e : EpochSchema}
    (hi : h[i]? = some e) : e.epoch.toNat = i := by
  have hlt : i < h.length := (List.getElem?_eq_some_iff.1 hi).1
  have hmap : (h.map fun e ↦ e.epoch.toNat)[i]? = some e.epoch.toNat := by
    rw [List.getElem?_map, hi]
    rfl
  rw [hok.epochs, List.getElem?_range hlt] at hmap
  exact (Option.some.inj hmap).symm

theorem HistoryOk.find?_eq {h : List EpochSchema} (hok : HistoryOk h) (e : UInt32) :
    h.find? (fun x ↦ x.epoch == e) = h[e.toNat]? := by
  cases hx : h[e.toNat]? with
  | none =>
    rw [List.find?_eq_none]
    intro x hmem
    obtain ⟨i, hi⟩ := List.mem_iff_getElem?.1 hmem
    have hepoch := hok.epoch_eq hi
    rw [beq_iff_eq]
    rintro rfl
    rw [hepoch, hi] at hx
    cases hx
  | some x =>
    obtain ⟨hlt, hget⟩ := List.getElem?_eq_some_iff.1 hx
    rw [List.find?_eq_some_iff_getElem]
    refine ⟨?_, e.toNat, hlt, hget, fun j hj ↦ ?_⟩
    · rw [beq_iff_eq]
      exact UInt32.toNat_inj.1 (hok.epoch_eq hx)
    · have hepoch := hok.epoch_eq (List.getElem?_eq_getElem (hj.trans hlt))
      rw [Bool.not_eq_true', beq_eq_false_iff_ne]
      intro heq
      rw [heq] at hepoch
      omega

theorem HistoryOk.getLast?_epoch {h : List EpochSchema} (hok : HistoryOk h) {last : EpochSchema}
    (hlast : h.getLast? = some last) : last.epoch.toNat + 1 = h.length := by
  rw [List.getLast?_eq_getElem?] at hlast
  have hlt := (List.getElem?_eq_some_iff.1 hlast).1
  rw [hok.epoch_eq hlast]
  omega

private theorem historyOk_nil : HistoryOk [] := ⟨rfl, by simp⟩

theorem HistoryOk.append {h : List EpochSchema} (hok : HistoryOk h) {e : EpochSchema}
    (hepoch : e.epoch.toNat = h.length) (hself : (e.keys.map KeyDef.name).Nodup)
    (htypes : ∀ past ∈ h, ∀ old ∈ past.keys, ∀ new ∈ e.keys, new.name = old.name →
      new.ty = old.ty) :
    HistoryOk (h ++ [e]) := by
  refine ⟨?_, ?_⟩
  · rw [List.map_append, hok.epochs, List.length_append, List.length_singleton, List.range_succ,
      List.map_singleton, hepoch]
  · intro a ha b hb k hk k' hk' hname
    rcases List.mem_append.1 ha with ha' | ha'
    · rcases List.mem_append.1 hb with hb' | hb'
      · exact hok.types a ha' b hb' k hk k' hk' hname
      · obtain rfl := List.mem_singleton.1 hb'
        exact (htypes a ha' k hk k' hk' hname.symm).symm
    · obtain rfl := List.mem_singleton.1 ha'
      rcases List.mem_append.1 hb with hb' | hb'
      · exact htypes b hb' k' hk' k hk hname
      · obtain rfl := List.mem_singleton.1 hb'
        rw [List.inj_on_of_nodup_map hself hk hk' hname]

theorem HistoryOk.replaceLast {h : List EpochSchema} (hok : HistoryOk h) {last : EpochSchema}
    (hlast : h.getLast? = some last) {keys : List KeyDef} (hkeys : layout last.keys = layout keys) :
    HistoryOk (h.dropLast ++ [⟨last.epoch, keys⟩]) := by
  obtain ⟨front, rfl⟩ : ∃ front, h = front ++ [last] := ⟨h.dropLast, by
    rw [List.dropLast_append_getLast? last hlast]⟩
  rw [List.dropLast_concat]
  have hmem : ∀ k ∈ keys, ∃ k' ∈ last.keys, k'.name = k.name ∧ k'.ty = k.ty := by
    intro k hk
    have : (k.name, k.ty) ∈ layout last.keys := by
      rw [hkeys]
      exact List.mem_map_of_mem hk
    obtain ⟨k', hk', heq⟩ := List.mem_map.1 this
    exact ⟨k', hk', (Prod.mk.injEq _ _ _ _ ▸ heq).1, (Prod.mk.injEq _ _ _ _ ▸ heq).2⟩
  -- a key of the new entry stands for a key of the entry it replaces
  have hrep : ∀ e ∈ front ++ [⟨last.epoch, keys⟩], ∀ k ∈ e.keys,
      ∃ e' ∈ front ++ [last], ∃ k' ∈ e'.keys, k'.name = k.name ∧ k'.ty = k.ty := by
    intro e he k hk
    rcases List.mem_append.1 he with he | he
    · exact ⟨e, List.mem_append_left _ he, k, hk, rfl, rfl⟩
    · obtain rfl := List.mem_singleton.1 he
      obtain ⟨k', hk', hk''⟩ := hmem k hk
      exact ⟨last, List.mem_append_right _ (List.mem_singleton_self _), k', hk', hk''⟩
  refine ⟨?_, fun a ha b hb k hk k' hk' hname ↦ ?_⟩
  · have := hok.epochs
    simp only [List.map_append, List.map_singleton, List.length_append, List.length_singleton]
      at this ⊢
    exact this
  · obtain ⟨a', ha', x, hx, hxn, hxt⟩ := hrep a ha k hk
    obtain ⟨b', hb', y, hy, hyn, hyt⟩ := hrep b hb k' hk'
    rw [← hxt, ← hyt]
    exact hok.types a' ha' b' hb' x hx y hy (by rw [hxn, hyn, hname])

/-! ## Reconciling -/

/-- What folding a declared series into its history achieves. -/
structure Reconciled (h h' : List EpochSchema) (s : SeriesConfig) (changed : Bool) : Prop where
  ok : HistoryOk h'
  frozen : Frozen h h'
  /-- The newest entry is the declared key list. -/
  current : ∃ e, h'.getLast? = some ⟨e, s.keys⟩
  unchanged : changed = false → h' = h

theorem reconcileSeries_spec {h h' : List EpochSchema} {s : SeriesConfig} {changed : Bool}
    (hok : HistoryOk h) (hself : (s.keys.map KeyDef.name).Nodup)
    (htypes : ∀ past ∈ h, ∀ old ∈ past.keys, ∀ new ∈ s.keys, new.name = old.name → new.ty = old.ty)
    (hrec : reconcileSeries h s = .ok (h', changed)) : Reconciled h h' s changed := by
  unfold reconcileSeries at hrec
  split at hrec
  next hlast =>
    rw [List.getLast?_eq_none_iff] at hlast
    subst hlast
    simp only [List.nil_append, Except.ok.injEq, Prod.mk.injEq] at hrec
    obtain ⟨rfl, rfl⟩ := hrec
    refine ⟨hok.append rfl hself htypes, ⟨List.nil_prefix, List.nil_prefix⟩, ⟨0, rfl⟩, by simp⟩
  next last hlast =>
    have hlen := hok.getLast?_epoch hlast
    split_ifs at hrec with hsame hkeys hmax
    · simp only [Except.ok.injEq, Prod.mk.injEq] at hrec
      obtain ⟨rfl, rfl⟩ := hrec
      rw [sameLayout_iff] at hsame
      refine ⟨hok.replaceLast hlast hsame, ⟨?_, List.prefix_append _ _⟩, ⟨last.epoch, by simp⟩,
        by simp⟩
      have hsplit : h = h.dropLast ++ [last] := by rw [List.dropLast_append_getLast? last hlast]
      nth_rewrite 1 [hsplit]
      simp only [List.map_append, List.map_singleton, EpochSchema.frozen, hsame]
      exact List.prefix_rfl
    · simp only [Except.ok.injEq, Prod.mk.injEq] at hrec
      obtain ⟨rfl, rfl⟩ := hrec
      rw [not_ne_iff] at hkeys
      exact ⟨hok, .refl h, ⟨last.epoch, by rw [← hkeys]; exact hlast⟩, fun _ ↦ rfl⟩
    · simp only [Except.ok.injEq, Prod.mk.injEq] at hrec
      obtain ⟨rfl, rfl⟩ := hrec
      have hepoch : (last.epoch + 1).toNat = h.length := by
        have hlt := last.epoch.toNat_lt
        unfold u32Max at hmax
        rw [UInt32.toNat_add, ← hlen]
        exact Nat.mod_eq_of_lt (by change last.epoch.toNat + 1 < 2 ^ 32; omega)
      refine ⟨hok.append hepoch hself htypes, ⟨?_, ?_⟩, ⟨_, List.getLast?_concat⟩, by simp⟩
      · rw [List.map_append]
        exact List.prefix_append _ _
      · exact (List.dropLast_prefix h).trans (List.prefix_append _ _)

@[simp] theorem Manifest.history_insert (m : Manifest) (name series : String)
    (h : List EpochSchema) :
    Manifest.history { m with series := m.series.insert name h } series =
      if name = series then h else m.history series := by
  simp [Manifest.history, Std.ExtTreeMap.getD_insert]

/-- Every history of the manifest is well formed. -/
def Manifest.Ok (m : Manifest) : Prop := ∀ series, HistoryOk (m.history series)

theorem manifest_default_ok : Manifest.Ok {} := fun series ↦ by
  simp only [Manifest.history, Std.ExtTreeMap.getD_empty]
  exact historyOk_nil

/-- What reconciling a manifest with the declared series achieves. -/
structure ManifestReconciled (m m' : Manifest) (series : List SeriesConfig) : Prop where
  ok : m'.Ok
  frozen : ∀ name, Frozen (m.history name) (m'.history name)
  current : ∀ s ∈ series, ∃ e, (m'.history s.name).getLast? = some ⟨e, s.keys⟩
  other : ∀ name, (∀ s ∈ series, s.name ≠ name) → m'.history name = m.history name
  watermark : m'.lastFlushedSegment = m.lastFlushedSegment

theorem reconcileAll_spec {m m' : Manifest} {series : List SeriesConfig} {c changed : Bool}
    (hok : m.Ok) (hnames : (series.map SeriesConfig.name).Nodup)
    (hself : ∀ s ∈ series, (s.keys.map KeyDef.name).Nodup)
    (htypes : ∀ s ∈ series, ∀ past ∈ m.history s.name, ∀ old ∈ past.keys, ∀ new ∈ s.keys,
      new.name = old.name → new.ty = old.ty)
    (hrec : reconcileAll m c series = .ok (m', changed)) : ManifestReconciled m m' series := by
  induction series generalizing m c with
  | nil =>
    simp only [reconcileAll, Except.ok.injEq, Prod.mk.injEq] at hrec
    obtain ⟨rfl, rfl⟩ := hrec
    exact ⟨hok, fun name ↦ .refl _, by simp, fun _ _ ↦ rfl, rfl⟩
  | cons s rest ih =>
    rw [reconcileAll, Except.bind_eq_ok] at hrec
    obtain ⟨⟨h', c'⟩, hs, hrec⟩ := hrec
    rw [List.map_cons, List.nodup_cons] at hnames
    have hne : ∀ t ∈ rest, s.name ≠ t.name := fun t ht heq ↦
      hnames.1 (heq ▸ List.mem_map_of_mem ht)
    have hstep := reconcileSeries_spec (hok s.name) (hself s List.mem_cons_self)
      (htypes s List.mem_cons_self) hs
    have hrest := ih (m := { m with series := m.series.insert s.name h' })
      (fun name ↦ by
        rw [Manifest.history_insert]
        split_ifs
        · exact hstep.ok
        · exact hok name)
      hnames.2 (fun t ht ↦ hself t (List.mem_cons_of_mem s ht))
      (fun t ht ↦ by
        rw [Manifest.history_insert, if_neg (hne t ht)]
        exact htypes t (List.mem_cons_of_mem s ht))
      hrec
    refine ⟨hrest.ok, fun name ↦ ?_, fun t ht ↦ ?_, fun name hname ↦ ?_, hrest.watermark⟩
    · have hf := hrest.frozen name
      rw [Manifest.history_insert] at hf
      split_ifs at hf with heq
      · subst heq
        exact hstep.frozen.trans hf
      · exact hf
    · rcases List.mem_cons.1 ht with rfl | ht
      · rw [hrest.other t.name fun u hu ↦ (hne u hu).symm, Manifest.history_insert, if_pos rfl]
        exact hstep.current
      · exact hrest.current t ht
    · rw [hrest.other name fun u hu ↦ hname u (List.mem_cons_of_mem s hu), Manifest.history_insert,
        if_neg (hname s List.mem_cons_self)]

theorem checkAllNoRetype_eq_ok_iff {m : Manifest} {series : List SeriesConfig} :
    checkAllNoRetype m series = .ok () ↔
      ∀ s ∈ series, checkNoRetype s.name (m.history s.name) s.keys = .ok () := by
  induction series with
  | nil => simp [checkAllNoRetype]
  | cons s rest ih =>
    rw [checkAllNoRetype, Except.bind_eq_ok, List.forall_mem_cons, ← ih]
    exact ⟨Exists.choose_spec, fun h ↦ ⟨(), h⟩⟩

/-- **Reconciling a config.** The histories stay well formed, keep every layout they recorded, and
end in the declared key lists. -/
theorem Manifest.reconcile_spec {m m' : Manifest} {config : Config} {changed : Bool} (hok : m.Ok)
    (hseries : SeriesChecked config.series) (hrec : m.reconcile config = .ok (m', changed)) :
    ManifestReconciled m m' config.series := by
  rw [Manifest.reconcile, Except.bind_eq_ok] at hrec
  obtain ⟨⟨⟩, hcheck, hrec⟩ := hrec
  exact reconcileAll_spec hok hseries.names hseries.keys
    (fun s hs ↦ checkNoRetype_eq_ok_iff.1 (checkAllNoRetype_eq_ok_iff.1 hcheck s hs)) hrec

/-! ## Looking a schema up -/

theorem Manifest.currentEpoch_eq (m : Manifest) (series : String) :
    m.currentEpoch series = (m.history series).getLast?.map EpochSchema.epoch := by
  rw [Manifest.currentEpoch, Manifest.history, Std.ExtTreeMap.getD_eq_getD_getElem?]
  cases m.series[series]? with
  | none => rfl
  | some h =>
    simp only [Option.bind_eq_bind, Option.bind_some, Option.getD_some]
    cases h.getLast? <;> rfl

/-- In a well-formed manifest the schema of an epoch stands at its position in the history. -/
theorem Manifest.Ok.schema_eq {m : Manifest} (hok : m.Ok) (series : String) (epoch : UInt32) :
    m.schema series epoch = ((m.history series)[epoch.toNat]?).map EpochSchema.keys := by
  have hfind := (hok series).find?_eq epoch
  rw [Manifest.history, Std.ExtTreeMap.getD_eq_getD_getElem?] at hfind ⊢
  rw [Manifest.schema]
  cases hs : m.series[series]? with
  | none => rfl
  | some h =>
    rw [hs, Option.getD_some] at hfind
    simp only [Option.bind_eq_bind, Option.bind_some, Option.getD_some, hfind]
    cases h[epoch.toNat]? <;> rfl

/-- Every epoch up to the current one has a schema. -/
theorem Manifest.Ok.exists_schema {m : Manifest} (hok : m.Ok) {series : String}
    {current epoch : UInt32} (hcur : m.currentEpoch series = some current) (hle : epoch ≤ current) :
    ∃ keys, m.schema series epoch = some keys := by
  rw [Manifest.currentEpoch_eq, Option.map_eq_some_iff] at hcur
  obtain ⟨last, hlast, rfl⟩ := hcur
  have hlen := (hok series).getLast?_epoch hlast
  have hlt : epoch.toNat < (m.history series).length := by
    have : epoch.toNat ≤ last.epoch.toNat := hle
    omega
  exact ⟨_, by rw [hok.schema_eq, List.getElem?_eq_getElem hlt, Option.map_some]⟩

/-- A schema found is found in every later history, with the same layout. -/
theorem Manifest.Ok.schema_frozen {m m' : Manifest} (hok : m.Ok) (hok' : m'.Ok) {series : String}
    {epoch : UInt32} {keys : List KeyDef} (hf : Frozen (m.history series) (m'.history series))
    (h : m.schema series epoch = some keys) :
    ∃ keys', m'.schema series epoch = some keys' ∧ layout keys' = layout keys := by
  rw [hok.schema_eq, Option.map_eq_some_iff] at h
  obtain ⟨e, he, rfl⟩ := h
  have hmap : ((m.history series).map EpochSchema.frozen)[epoch.toNat]? = some e.frozen := by
    rw [List.getElem?_map, he, Option.map_some]
  obtain ⟨more, hmore⟩ := hf.layouts
  have hmap' : ((m'.history series).map EpochSchema.frozen)[epoch.toNat]? = some e.frozen := by
    rw [← hmore, List.getElem?_append_left (List.getElem?_eq_some_iff.1 hmap).1, hmap]
  rw [List.getElem?_map, Option.map_eq_some_iff] at hmap'
  obtain ⟨e', he', hfrozen⟩ := hmap'
  refine ⟨e'.keys, by rw [hok'.schema_eq, he', Option.map_some], ?_⟩
  exact congrArg Prod.snd hfrozen

private theorem reconcileSeries_unchanged {h h' : List EpochSchema} {s : SeriesConfig}
    (hrec : reconcileSeries h s = .ok (h', false)) : h' = h ∧ h ≠ [] := by
  unfold reconcileSeries at hrec
  split at hrec
  next => simp at hrec
  next last hlast =>
    split_ifs at hrec
    · simp at hrec
    · simp only [Except.ok.injEq, Prod.mk.injEq, and_true] at hrec
      refine ⟨hrec.symm, ?_⟩
      rintro rfl
      cases hlast
    · simp at hrec

/-- Putting a history back as it was changes nothing. -/
theorem Manifest.insert_history {m : Manifest} {name : String} (hne : m.history name ≠ []) :
    { m with series := m.series.insert name (m.history name) } = m := by
  have hget : m.series[name]? = some (m.history name) := by
    rw [Manifest.history, Std.ExtTreeMap.getD_eq_getD_getElem?] at hne ⊢
    cases hs : m.series[name]? with
    | none =>
      rw [hs] at hne
      exact absurd rfl hne
    | some h => rfl
  have hsame : m.series.insert name (m.history name) = m.series := by
    refine Std.ExtTreeMap.ext_getElem? fun k ↦ ?_
    rw [Std.ExtTreeMap.getElem?_insert]
    split_ifs with hk
    · rw [← Std.LawfulEqCmp.eq_of_compare hk, hget]
    · rfl
  rw [hsame]

private theorem reconcileAll_unchanged {m m' : Manifest} {series : List SeriesConfig} {c : Bool}
    (hrec : reconcileAll m c series = .ok (m', false)) : m' = m ∧ c = false := by
  induction series generalizing m c with
  | nil =>
    simp only [reconcileAll, Except.ok.injEq, Prod.mk.injEq] at hrec
    exact ⟨hrec.1.symm, hrec.2⟩
  | cons s rest ih =>
    rw [reconcileAll, Except.bind_eq_ok] at hrec
    obtain ⟨⟨h, c'⟩, hs, hrec⟩ := hrec
    obtain ⟨hm, hc⟩ := ih hrec
    rw [Bool.or_eq_false_iff] at hc
    obtain ⟨rfl, rfl⟩ := hc
    obtain ⟨rfl, hne⟩ := reconcileSeries_unchanged hs
    exact ⟨hm.trans (Manifest.insert_history hne), rfl⟩

theorem Manifest.reconcile_unchanged {m m' : Manifest} {config : Config}
    (hrec : m.reconcile config = .ok (m', false)) : m' = m := by
  rw [Manifest.reconcile, Except.bind_eq_ok] at hrec
  obtain ⟨⟨⟩, -, hrec⟩ := hrec
  exact (reconcileAll_unchanged hrec).1

end Orc
