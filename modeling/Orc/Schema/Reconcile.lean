import Mathlib.Data.List.TakeWhile
import Orc.Schema.Manifest

/-!
# Reconciling in place

`Manifest::reconcile` changes the manifest it is called on. Its first loop only checks; its second
folds the declared series in one by one, and stops where a series needs an epoch past the last one.
`updateAll` keeps the manifest in both cases: what was folded in before the error is still there.

`exhausted` and `settled` are read off a history and a declared series alone. Whether the manifest
is left as it was is then decided by the series in front of the first exhausted one
(`Manifest.Torn`).

`Manifest.reconcile` in `Orc.Schema.Manifest` returns a new manifest or an error and is what the
rest of the development uses; an engine that fails to open drops the manifest it was folding into.
The two agree where the call succeeds. The difference can be seen by a caller that keeps the
manifest.
-/

namespace Orc

open Bytes

/-- The second loop of `reconcile`, with the manifest it leaves. -/
def Manifest.updateAll (m : Manifest) (changed : Bool) :
    List SeriesConfig → Except Error Bool × Manifest
  | [] => (.ok changed, m)
  | s :: rest =>
    match reconcileSeries (m.history s.name) s with
    -- only a series with a history can fail, so that no entry was made for this one
    | .error e => (.error e, m)
    | .ok (history, c) =>
      Manifest.updateAll { m with series := m.series.insert s.name history } (changed || c) rest

/-- `reconcile` as it runs on a manifest: what it returns and what it leaves. -/
def Manifest.reconcileInPlace (m : Manifest) (config : Config) : Except Error Bool × Manifest :=
  match checkAllNoRetype m config.series with
  | .error e => (.error e, m)
  | .ok () => m.updateAll false config.series

theorem Manifest.reconcileAll_eq (m : Manifest) (c : Bool) (series : List SeriesConfig) :
    reconcileAll m c series =
      (m.updateAll c series).1.map fun c' ↦ ((m.updateAll c series).2, c') := by
  induction series generalizing m c with
  | nil => rfl
  | cons s rest ih =>
    rw [reconcileAll, Manifest.updateAll]
    cases reconcileSeries (m.history s.name) s with
    | error e => rfl
    | ok r => exact ih _ _

theorem Manifest.reconcile_eq (m : Manifest) (config : Config) :
    m.reconcile config =
      (m.reconcileInPlace config).1.map fun c ↦ ((m.reconcileInPlace config).2, c) := by
  rw [Manifest.reconcile, Manifest.reconcileInPlace]
  cases checkAllNoRetype m config.series with
  | error e => rfl
  | ok u => exact Manifest.reconcileAll_eq m false config.series

/-! ## One series -/

/-- A new layout for a series whose newest epoch is the last one. -/
def exhausted (h : List EpochSchema) (s : SeriesConfig) : Bool :=
  h.getLast?.any fun last ↦ !sameLayout last.keys s.keys && last.epoch.toNat == u32Max

/-- The newest entry is the declared key list. -/
def settled (h : List EpochSchema) (s : SeriesConfig) : Bool :=
  h.getLast?.any fun last ↦ last.keys == s.keys

theorem settled_iff {h : List EpochSchema} {s : SeriesConfig} :
    settled h s = true ↔ ∃ e, h.getLast? = some ⟨e, s.keys⟩ := by
  cases hlast : h.getLast? with
  | none => simp [settled, hlast]
  | some last =>
    obtain ⟨epoch, keys⟩ := last
    simp [settled, hlast]

private theorem not_exhausted_of_settled {h : List EpochSchema} {s : SeriesConfig}
    (hs : settled h s = true) : exhausted h s = false := by
  obtain ⟨e, hlast⟩ := settled_iff.1 hs
  simp [exhausted, hlast, sameLayout_iff.2 rfl]

theorem reconcileSeries_of_settled {h : List EpochSchema} {s : SeriesConfig}
    (hs : settled h s = true) : reconcileSeries h s = .ok (h, false) := by
  obtain ⟨e, hlast⟩ := settled_iff.1 hs
  simp [reconcileSeries, hlast, sameLayout_iff.2 rfl]

private theorem reconcileSeries_of_exhausted {h : List EpochSchema} {s : SeriesConfig}
    (hs : exhausted h s = true) :
    reconcileSeries h s = .error (.config (.epochsExhausted s.name)) := by
  cases hlast : h.getLast? with
  | none => simp [exhausted, hlast] at hs
  | some last =>
    simp only [exhausted, hlast, Option.any_some, Bool.and_eq_true, Bool.not_eq_true',
      beq_iff_eq] at hs
    simp [reconcileSeries, hlast, hs.1, hs.2]

/-- What folding a series in does, for any history. -/
structure Folded (h h' : List EpochSchema) (s : SeriesConfig) : Prop where
  settled : settled h' s = true
  mem : ∀ e ∈ h', e ∈ h ∨ e.keys = s.keys

theorem reconcileSeries_of_not_exhausted {h : List EpochSchema} {s : SeriesConfig}
    (hs : exhausted h s = false) :
    ∃ h', reconcileSeries h s = .ok (h', !settled h s) ∧ Folded h h' s := by
  have happend : ∀ e : UInt32, Folded h (h ++ [⟨e, s.keys⟩]) s := fun e ↦
    ⟨settled_iff.2 ⟨e, List.getLast?_concat⟩, fun x hx ↦ by
      rcases List.mem_append.1 hx with hx | hx
      · exact .inl hx
      · exact .inr (by rw [List.mem_singleton.1 hx])⟩
  cases hlast : h.getLast? with
  | none => exact ⟨h ++ [⟨0, s.keys⟩], by simp [reconcileSeries, settled, hlast], happend 0⟩
  | some last =>
    simp only [exhausted, hlast, Option.any_some] at hs
    by_cases hkeys : last.keys = s.keys
    · have hsettled : settled h s = true := settled_iff.2 ⟨last.epoch, by rw [hlast, ← hkeys]⟩
      refine ⟨h, by rw [reconcileSeries_of_settled hsettled, hsettled]; rfl, hsettled, ?_⟩
      exact fun x hx ↦ .inl hx
    have hsettled : settled h s = false := by simp [settled, hlast, hkeys]
    by_cases hsame : sameLayout last.keys s.keys = true
    · refine ⟨h.dropLast ++ [⟨last.epoch, s.keys⟩], by simp [reconcileSeries, hlast, hsame, hkeys,
        hsettled], settled_iff.2 ⟨last.epoch, List.getLast?_concat⟩, fun x hx ↦ ?_⟩
      rcases List.mem_append.1 hx with hx | hx
      · exact .inl (List.mem_of_mem_dropLast hx)
      · exact .inr (by rw [List.mem_singleton.1 hx])
    · have hepoch : last.epoch.toNat ≠ u32Max := by simpa [hsame] using hs
      exact ⟨_, by simp [reconcileSeries, hlast, hsame, hepoch, hsettled], happend (last.epoch + 1)⟩

/-! ## The series in front of the first exhausted one -/

/-- The declared series that are folded in before the loop stops. -/
def Manifest.front (m : Manifest) (series : List SeriesConfig) : List SeriesConfig :=
  series.takeWhile fun s ↦ !exhausted (m.history s.name) s

theorem Manifest.front_congr {m m' : Manifest} {series : List SeriesConfig}
    (h : ∀ s ∈ series, m'.history s.name = m.history s.name) :
    m'.front series = m.front series := by
  induction series with
  | nil => rfl
  | cons s rest ih =>
    rw [List.forall_mem_cons] at h
    have hrest := ih h.2
    unfold Manifest.front at hrest ⊢
    rw [List.takeWhile_cons, List.takeWhile_cons, h.1, hrest]

theorem Manifest.history_insert_ne {m : Manifest} {s : SeriesConfig} {rest : List SeriesConfig}
    (hnames : ((s :: rest).map SeriesConfig.name).Nodup) (h : List EpochSchema) :
    ∀ t ∈ rest, Manifest.history { m with series := m.series.insert s.name h } t.name =
      m.history t.name := by
  intro t ht
  rw [List.map_cons, List.nodup_cons] at hnames
  rw [Manifest.history_insert, if_neg]
  intro heq
  exact hnames.1 (heq ▸ List.mem_map_of_mem ht)

/-- What the loop leaves of a manifest, whether it fails or not. -/
structure Manifest.Updated (m m' : Manifest) (series : List SeriesConfig) : Prop where
  folded : ∀ s ∈ m.front series, Folded (m.history s.name) (m'.history s.name) s
  same : (∀ s ∈ m.front series, settled (m.history s.name) s = true) → m' = m
  other : ∀ name, (∀ s ∈ series, s.name ≠ name) → m'.history name = m.history name

theorem Manifest.updateAll_exhausted {m : Manifest} {c : Bool} {s : SeriesConfig}
    {rest : List SeriesConfig} (hs : exhausted (m.history s.name) s = true) :
    m.updateAll c (s :: rest) = (.error (.config (.epochsExhausted s.name)), m) := by
  rw [Manifest.updateAll, reconcileSeries_of_exhausted hs]

theorem Manifest.updateAll_updated (m : Manifest) (c : Bool) {series : List SeriesConfig}
    (hnames : (series.map SeriesConfig.name).Nodup) :
    m.Updated (m.updateAll c series).2 series := by
  induction series generalizing m c with
  | nil => exact ⟨by simp [Manifest.front], fun _ ↦ rfl, fun _ _ ↦ rfl⟩
  | cons s rest ih =>
    cases hs : exhausted (m.history s.name) s with
    | true =>
      have hfront : m.front (s :: rest) = [] := by simp [Manifest.front, hs]
      rw [Manifest.updateAll_exhausted hs]
      exact ⟨by simp [hfront], fun _ ↦ rfl, fun _ _ ↦ rfl⟩
    | false =>
      obtain ⟨h', hrec, hfolded⟩ := reconcileSeries_of_not_exhausted hs
      have hothers := Manifest.history_insert_ne (m := m) hnames h'
      have hfront : m.front (s :: rest) = s :: m.front rest := by simp [Manifest.front, hs]
      have hrest := ih { m with series := m.series.insert s.name h' }
        (c || !settled (m.history s.name) s) (List.nodup_cons.1 hnames).2
      have hown : ∀ t ∈ rest, t.name ≠ s.name := fun t ht heq ↦
        (List.nodup_cons.1 hnames).1 (heq ▸ List.mem_map_of_mem ht)
      rw [Manifest.updateAll, hrec]
      refine ⟨?_, fun hall ↦ ?_, fun name hname ↦ ?_⟩
      · rw [hfront, List.forall_mem_cons]
        refine ⟨?_, fun t ht ↦ ?_⟩
        · rw [hrest.other s.name hown, Manifest.history_insert, if_pos rfl]
          exact hfolded
        · have hmem := (List.takeWhile_prefix _).subset ht
          have hfold := hrest.folded t (by rwa [Manifest.front_congr hothers])
          rwa [hothers t hmem] at hfold
      · rw [hfront, List.forall_mem_cons] at hall
        -- the history is put back as it was
        rw [reconcileSeries_of_settled hall.1] at hrec
        obtain rfl : m.history s.name = h' := congrArg Prod.fst (Except.ok.inj hrec)
        have hne : m.history s.name ≠ [] := by
          intro hnil
          simp [settled, hnil] at hall
        rw [Manifest.insert_history hne] at hrest
        dsimp only
        rw [Manifest.insert_history hne]
        exact hrest.same hall.2
      · rw [List.forall_mem_cons] at hname
        rw [hrest.other name hname.2, Manifest.history_insert, if_neg hname.1]

theorem Manifest.updateAll_eq_ok {m : Manifest} {c : Bool} {series : List SeriesConfig}
    (hnames : (series.map SeriesConfig.name).Nodup)
    (hs : ∀ s ∈ series, exhausted (m.history s.name) s = false) :
    (m.updateAll c series).1 =
      .ok (c || series.any fun s ↦ !settled (m.history s.name) s) := by
  induction series generalizing m c with
  | nil => simp [Manifest.updateAll]
  | cons s rest ih =>
    rw [List.forall_mem_cons] at hs
    obtain ⟨h', hrec, -⟩ := reconcileSeries_of_not_exhausted hs.1
    have hothers := Manifest.history_insert_ne (m := m) hnames h'
    rw [Manifest.updateAll, hrec]
    refine (ih (List.nodup_cons.1 hnames).2 fun t ht ↦ ?_).trans ?_
    · rw [hothers t ht]
      exact hs.2 t ht
    · rw [List.any_cons, Bool.or_assoc]
      congr 3
      rw [Bool.eq_iff_iff, List.any_eq_true, List.any_eq_true]
      exact exists_congr fun t ↦ and_congr_right fun ht ↦ by rw [hothers t ht]

theorem Manifest.updateAll_eq_error {m : Manifest} {c : Bool} {series : List SeriesConfig}
    (hnames : (series.map SeriesConfig.name).Nodup)
    (hs : ∃ s ∈ series, exhausted (m.history s.name) s = true) :
    ∃ e, (m.updateAll c series).1 = .error e := by
  induction series generalizing m c with
  | nil => simp at hs
  | cons s rest ih =>
    cases hs' : exhausted (m.history s.name) s with
    | true => exact ⟨_, by rw [Manifest.updateAll_exhausted hs']⟩
    | false =>
      obtain ⟨h', hrec, -⟩ := reconcileSeries_of_not_exhausted hs'
      obtain ⟨t, ht, hex⟩ := hs
      rcases List.mem_cons.1 ht with rfl | ht
      · rw [hs'] at hex
        cases hex
      · rw [Manifest.updateAll, hrec]
        refine ih (List.nodup_cons.1 hnames).2 ⟨t, ht, ?_⟩
        rw [Manifest.history_insert_ne hnames h' t ht]
        exact hex

/-! ## The whole config -/

/-- Reconciling is all or nothing, tells whether it changed the manifest, and settles it. -/
structure Manifest.AllOrNothing (m : Manifest) (config : Config) : Prop where
  error : ∀ e m', m.reconcileInPlace config = (.error e, m') → m' = m
  changed : ∀ c m', m.reconcileInPlace config = (.ok c, m') → (c = true ↔ m' ≠ m)
  again : ∀ c m', m.reconcileInPlace config = (.ok c, m') →
    m'.reconcileInPlace config = (.ok false, m')

/-- The loop fails at an exhausted series with a series in front of it that was new to the manifest
or declared otherwise. -/
def Manifest.Torn (m : Manifest) (config : Config) : Prop :=
  checkAllNoRetype m config.series = .ok () ∧
    (∃ s ∈ config.series, exhausted (m.history s.name) s = true) ∧
    ∃ s ∈ m.front config.series, settled (m.history s.name) s = false

instance Manifest.decidableTorn (m : Manifest) (config : Config) : Decidable (m.Torn config) :=
  inferInstanceAs (Decidable (_ ∧ _ ∧ _))

theorem Manifest.front_eq_self {m : Manifest} {series : List SeriesConfig}
    (hs : ∀ s ∈ series, exhausted (m.history s.name) s = false) : m.front series = series :=
  List.takeWhile_eq_self_iff.2 fun s hmem ↦ by rw [hs s hmem]; rfl

theorem Manifest.reconcileInPlace_of_check {m : Manifest} {config : Config}
    (hcheck : checkAllNoRetype m config.series = .ok ()) :
    m.reconcileInPlace config = m.updateAll false config.series := by
  rw [Manifest.reconcileInPlace, hcheck]

/-- Histories made of old entries and the declared one pass the check that the old ones passed. -/
theorem checkNoRetype_of_folded {h h' : List EpochSchema} {s : SeriesConfig}
    (hself : (s.keys.map KeyDef.name).Nodup) (hcheck : checkNoRetype s.name h s.keys = .ok ())
    (hfolded : Folded h h' s) : checkNoRetype s.name h' s.keys = .ok () := by
  rw [checkNoRetype_eq_ok_iff] at hcheck ⊢
  intro past hpast old hold new hnew hname
  rcases hfolded.mem past hpast with hmem | hkeys
  · exact hcheck past hmem old hold new hnew hname
  · rw [hkeys] at hold
    rw [List.inj_on_of_nodup_map hself hnew hold hname]

theorem Manifest.reconcileInPlace_of_settled {m : Manifest} {config : Config}
    (hnames : (config.series.map SeriesConfig.name).Nodup)
    (hcheck : checkAllNoRetype m config.series = .ok ())
    (hs : ∀ s ∈ config.series, settled (m.history s.name) s = true) :
    m.reconcileInPlace config = (.ok false, m) := by
  have hex : ∀ s ∈ config.series, exhausted (m.history s.name) s = false := fun s hmem ↦
    not_exhausted_of_settled (hs s hmem)
  rw [Manifest.reconcileInPlace_of_check hcheck]
  refine Prod.ext ?_ ((m.updateAll_updated false hnames).same ?_)
  · rw [Manifest.updateAll_eq_ok hnames hex, Bool.false_or]
    refine congrArg Except.ok (List.any_eq_false.2 fun s hmem ↦ ?_)
    simp [hs s hmem]
  · rwa [Manifest.front_eq_self hex]

theorem Manifest.allOrNothing_of_ok {m : Manifest} {config : Config}
    (hseries : SeriesChecked config.series) (hcheck : checkAllNoRetype m config.series = .ok ())
    (hex : ∀ s ∈ config.series, exhausted (m.history s.name) s = false) :
    m.AllOrNothing config := by
  have hupdated := m.updateAll_updated false hseries.names
  have hresult := Manifest.updateAll_eq_ok (c := false) hseries.names hex
  obtain ⟨hfolded, hsame, -⟩ := hupdated
  rw [Manifest.front_eq_self hex] at hfolded hsame
  rw [Bool.false_or] at hresult
  have hrec := Manifest.reconcileInPlace_of_check hcheck
  refine ⟨fun e m' h ↦ ?_, fun c m' h ↦ ?_, fun c m' h ↦ ?_⟩
  · rw [hrec] at h
    rw [h] at hresult
    cases hresult
  · rw [hrec] at h
    rw [h] at hresult hfolded hsame
    cases hresult
    constructor
    · rintro hany rfl
      obtain ⟨s, hmem, hnot⟩ := List.any_eq_true.1 hany
      rw [(hfolded s hmem).settled] at hnot
      cases hnot
    · intro hne
      by_contra hall
      refine hne (hsame fun s hmem ↦ ?_)
      have hnot := List.any_eq_false.1 (Bool.eq_false_iff.2 hall) s hmem
      simpa using hnot
  · rw [hrec] at h
    rw [h] at hfolded
    refine Manifest.reconcileInPlace_of_settled hseries.names ?_ fun s hmem ↦
      (hfolded s hmem).settled
    rw [checkAllNoRetype_eq_ok_iff] at hcheck ⊢
    exact fun s hmem ↦
      checkNoRetype_of_folded (hseries.keys s hmem) (hcheck s hmem) (hfolded s hmem)

/-- **All or nothing but for exhausted epochs.** Reconciling a validated config leaves the manifest
as it was when it fails, tells whether it changed it when it does not, and changes nothing when it
is repeated, unless a series has exhausted its epochs and one in front of it was changed. -/
theorem reconcile_atomic_iff {lower : String → String} (m : Manifest) {config : Config}
    (hvalid : config.validate lower = .ok ()) : m.AllOrNothing config ↔ ¬ m.Torn config := by
  have hseries := Config.validate_series hvalid
  cases hcheck : checkAllNoRetype m config.series with
  | error e =>
    have hrec : m.reconcileInPlace config = (.error e, m) := by
      rw [Manifest.reconcileInPlace, hcheck]
    refine iff_of_true ⟨?_, ?_, ?_⟩ fun htorn ↦ ?_
    · intro e' m' h
      rw [hrec] at h
      exact (congrArg Prod.snd h).symm
    · intro c m' h
      cases hrec.symm.trans h
    · intro c m' h
      cases hrec.symm.trans h
    · cases hcheck.symm.trans htorn.1
  | ok u =>
    by_cases hex : ∃ s ∈ config.series, exhausted (m.history s.name) s = true
    · obtain ⟨hfolded, hsame, -⟩ := m.updateAll_updated false hseries.names
      obtain ⟨e, herr⟩ := Manifest.updateAll_eq_error (c := false) hseries.names hex
      have hrec := Manifest.reconcileInPlace_of_check hcheck
      constructor
      · rintro hall ⟨-, -, s, hmem, hnot⟩
        have heq : (m.updateAll false config.series).2 = m :=
          hall.error e _ (hrec.trans (Prod.ext herr rfl))
        have hsettled := (hfolded s hmem).settled
        rw [heq, hnot] at hsettled
        cases hsettled
      · intro htorn
        have heq : (m.updateAll false config.series).2 = m := hsame fun s hmem ↦ by
          by_contra hnot
          exact htorn ⟨hcheck, hex, s, hmem, Bool.eq_false_iff.2 hnot⟩
        refine ⟨fun e' m' h ↦ ?_, fun c m' h ↦ ?_, fun c m' h ↦ ?_⟩
        · rw [hrec] at h
          rw [← heq, h]
        · rw [hrec] at h
          rw [h] at herr
          cases herr
        · rw [hrec] at h
          rw [h] at herr
          cases herr
    · simp only [not_exists, not_and, Bool.not_eq_true] at hex
      refine iff_of_true (Manifest.allOrNothing_of_ok hseries hcheck hex) ?_
      rintro ⟨-, ⟨s, hmem, hs⟩, -⟩
      rw [hex s hmem] at hs
      cases hs

/-! ## A manifest half changed -/

/-- Series `b` is at its last epoch. -/
private def lastEpochManifest : Manifest := { series := {("b", [⟨UInt32.ofNat u32Max, []⟩])} }

/-- Series `a` is new, and `b` has a key more. -/
private def grownConfig : Config := { series := [⟨"a", []⟩, ⟨"b", [⟨"k", .str, false⟩]⟩] }

/-- The call fails at `b` and leaves `a` in the manifest. -/
theorem reconcile_half_done :
    grownConfig.validate id = .ok () ∧
      (lastEpochManifest.reconcileInPlace grownConfig).1 =
        .error (.config (.epochsExhausted "b")) ∧
      lastEpochManifest.currentEpoch "a" = none ∧
      (lastEpochManifest.reconcileInPlace grownConfig).2.currentEpoch "a" = some 0 := by
  decide +kernel

/-- With `b` declared first nothing is changed. -/
theorem reconcile_atomic_iff_reordered :
    lastEpochManifest.AllOrNothing { series := grownConfig.series.reverse } :=
  (reconcile_atomic_iff lastEpochManifest
    (show Config.validate id { series := grownConfig.series.reverse } = .ok () by
      decide +kernel)).2 (by decide +kernel)

end Orc
