import SearchArgument.Proofs.Domain.Scalar
import SearchArgument.Proofs.Interval

/-! The orders by which terms are sorted and merged. Literals compare as their keys, points of the
line as their floors, endpoints by floor and offset and terms by their two endpoints, the empty
ones before all others. So each of these comparisons is one of keys from a linear order, and
lawful for that reason. Endpoints of one position agree in class and strictness if they are on one
side; `≤ 7` and `≥ 7` have one position as well. -/

namespace SearchArgument

variable {d : Domain} {K : Type} [LinearOrder K] {cmp : Value → Value → Ordering}

theorem transCmp_of_key {α β : Type} [LinearOrder β] {cmp : α → α → Ordering} (key : α → β)
    (h : ∀ a b, cmp a b = Ord.compare (key a) (key b)) : Std.TransCmp cmp := by
  have hcmp : cmp = compareOn key := funext fun a => funext fun b => h a b
  rw [hcmp]
  infer_instance

/-! ### Points -/

namespace Coordinate

variable {p q : Coordinate}

theorem compare_of_rank_ne (h : p.rank ≠ q.rank) :
    p.compare cmp q = Ord.compare p.rank q.rank := by
  cases p <;> cases q <;> first | rfl | exact absurd rfl h

theorem floor_lt_of_rank_lt (σ : d.Scale K) (h : p.rank < q.rank) : σ.floor p < σ.floor q := by
  cases p <;> cases q <;> simp_all [rank, Domain.Scale.floor]

/-- Points compare as their floors. -/
theorem compare_eq_floor (σ : d.Scale K) (hp : p.Over d) (hq : q.Over d) :
    p.compare d.compare q = Ord.compare (σ.floor p) (σ.floor q) := by
  rcases lt_trichotomy p.rank q.rank with h | h | h
  · rw [compare_of_rank_ne h.ne, compare_lt_iff_lt.2 h,
      compare_lt_iff_lt.2 (floor_lt_of_rank_lt σ h)]
  · cases p <;> cases q <;> cases h
    case finite.finite.refl v w =>
      have hmono : StrictMono fun k : K => Seam.beside k false := fun k l hlt =>
        Seam.beside_lt_beside.2 (.inl hlt)
      exact (σ.compare_eq hp hq).trans (compare_of_strictMono hmono _ _).symm
    all_goals exact (compare_eq_iff_eq.2 rfl).symm
  · rw [compare_of_rank_ne h.ne', compare_gt_iff_gt.2 h,
      compare_gt_iff_gt.2 (floor_lt_of_rank_lt σ h)]

theorem compare_eq_eq_iff : p.compare cmp q = .eq ↔ p = q ∧ p.isInfinite ∨ p.Alike cmp q := by
  constructor
  · intro h
    cases p <;> cases q <;> first
      | exact .inl ⟨rfl, rfl⟩
      | exact .inr .null
      | exact .inr (.finite h)
      | cases h
  · rintro (⟨rfl, h⟩ | _ | h)
    · cases p <;> first | rfl | cases h
    · rfl
    · exact h

theorem Alike.not_isInfinite (h : p.Alike cmp q) :
    p.isInfinite = false ∧ q.isInfinite = false := by
  cases h <;> exact ⟨rfl, rfl⟩

end Coordinate

/-! ### Endpoints -/

namespace Cut

variable {a b : Cut}

/-- Apart from the infinities, side and strictness determine the offset. -/
theorem offset_eq (h : a.isInfinite = false) : a.offset = (null a.side a.strictness).offset := by
  cases a <;> first | rfl | cases h

theorem offset_eq_iff (hside : a.side = b.side) (ha : a.isInfinite = false)
    (hb : b.isInfinite = false) : a.offset = b.offset ↔ a.strictness = b.strictness := by
  rw [offset_eq ha, offset_eq hb, hside]
  cases b.side <;> cases a.strictness <;> cases b.strictness <;> decide

theorem eq_of_coordinate (h : a.coordinate = b.coordinate) (ha : a.isInfinite) : a = b := by
  cases a with
  | negInfinity | posInfinity => cases b <;> first | rfl | cases h
  | null | finite => cases ha

theorem compare_eq_eq_iff (hside : a.side = b.side) : a.compare cmp b = .eq ↔
    a = b ∧ a.isInfinite ∨
      a.coordinate.Alike cmp b.coordinate ∧ a.strictness = b.strictness := by
  rw [Cut.compare, Ordering.then_eq_eq, compare_eq_iff_eq, Coordinate.compare_eq_eq_iff,
    or_and_right]
  refine or_congr ?_ (and_congr_right fun halike => ?_)
  · constructor
    · rintro ⟨⟨hc, hinf⟩, -⟩
      exact ⟨eq_of_coordinate hc hinf, hinf⟩
    · rintro ⟨rfl, hinf⟩
      exact ⟨⟨rfl, hinf⟩, rfl⟩
  · obtain ⟨ha, hb⟩ := halike.not_isInfinite
    exact offset_eq_iff hside ha hb

theorem touches_comm (hd : d.Ordered) (ha : a.coordinate.Over d) (hb : b.coordinate.Over d) :
    a.touches d.compare b = b.touches d.compare a := by
  cases a with
  | negInfinity | posInfinity | null => cases b <;> rfl
  | finite v _ s =>
    cases b with
    | negInfinity | posInfinity | null => rfl
    | finite w _ t =>
      show (d.compare v w == .eq && (s == .closed || t == .closed)) =
        (d.compare w v == .eq && (t == .closed || s == .closed))
      rw [← hd.swap v w ha hb, Bool.or_comm]
      cases d.compare v w <;> rfl

end Cut

namespace Endpoint

variable {a b : Endpoint}

/-- The position of an endpoint: the floor of its coordinate, then its offset. -/
def key (σ : d.Scale K) (e : Endpoint) : Seam K ×ₗ ℤ :=
  toLex (σ.floor e.cut.coordinate, e.cut.offset)

theorem compare_eq_key (σ : d.Scale K) (ha : a.Over d) (hb : b.Over d) :
    a.compare b = Ord.compare (a.key σ) (b.key σ) := by
  rw [Endpoint.compare, Cut.compare, ha.domain_eq, Coordinate.compare_eq_floor σ ha.cut hb.cut]
  simp [key, Prod.Lex.compare_def, compareLex, compareOn]

end Endpoint

/-! ### Terms -/

namespace Interval

variable {i j : Interval}

/-- The position of a term: below all others if it is empty, else those of its two endpoints. -/
def key (σ : d.Scale K) (i : Interval) : WithBot ((Seam K ×ₗ ℤ) ×ₗ Seam K ×ₗ ℤ) :=
  if i.isEmpty then ⊥ else .some (toLex (i.lower.key σ, i.upper.key σ))

theorem compare_eq_key (σ : d.Scale K) (hi : i.Over d) (hj : j.Over d) :
    i.compare j = Ord.compare (i.key σ) (j.key σ) := by
  have hbounds : i.bounds.compare i.domain.compare j.bounds =
      Ord.compare (toLex (i.lower.key σ, i.upper.key σ))
        (toLex (j.lower.key σ, j.upper.key σ)) := by
    have hsplit : i.bounds.compare i.domain.compare j.bounds =
        (i.lower.compare j.lower).then (i.upper.compare j.upper) := rfl
    rw [hsplit, Endpoint.compare_eq_key σ hi.lower hj.lower,
      Endpoint.compare_eq_key σ hi.upper hj.upper]
    simp [Prod.Lex.compare_def, compareLex, compareOn]
  unfold Interval.compare key
  cases i.isEmpty <;> cases j.isEmpty
  · exact hbounds.trans (compare_of_strictMono WithBot.coe_strictMono _ _).symm
  · exact (compare_gt_iff_gt.2 (WithBot.bot_lt_coe _)).symm
  · exact (compare_lt_iff_lt.2 (WithBot.bot_lt_coe _)).symm
  · exact (compare_eq_iff_eq.2 rfl).symm

end Interval

/-! ### What is built -/

theorem Domain.Lower.over {c : Cut} (h : d.Lower c) : c.coordinate.Over d := by
  cases h with
  | negInfinity | null => trivial
  | finite t hv => exact hv

theorem Domain.Upper.over {c : Cut} (h : d.Upper c) : c.coordinate.Over d := by
  cases h with
  | posInfinity | null => trivial
  | finite t hv => exact hv

theorem Endpoint.Built.over {e : Endpoint} (h : e.Built (· = d)) : e.Over d :=
  ⟨h.sound.1, h.sound.2.elim Domain.Lower.over Domain.Upper.over⟩

theorem Interval.Built.over {i : Interval} (h : i.Built (· = d)) : i.Over d := by
  obtain ⟨hd, hb⟩ := h.sound
  exact ⟨hd, ⟨hd, hb.lower.over⟩, ⟨hd, hb.upper.over⟩⟩

/-- The order of literals is total up to equality. Over an ordered domain, endpoints and terms are
in a total preorder each, whichever way they were built. Two endpoints of one side have one
position only if they are the same infinity or agree in class and strictness, and touching is
symmetric. Empty terms come first. -/
theorem orders_lawful :
    (Std.TransCmp Value.compare ∧ Std.LawfulBEqCmp Value.compare) ∧
    ∀ {d : Domain}, d.Ordered →
      (∀ e : Endpoint, e.Built (· = d) → e.Over d) ∧
      (∀ i : Interval, i.Built (· = d) → i.Over d) ∧
      Std.TransCmp (fun a b : {e : Endpoint // e.Over d} => a.1.compare b.1) ∧
      (∀ a b : Endpoint, a.Over d → b.Over d → a.cut.side = b.cut.side →
        (a.compare b = .eq ↔ a.cut = b.cut ∧ a.cut.isInfinite ∨
          a.cut.coordinate.Alike d.compare b.cut.coordinate ∧
            a.cut.strictness = b.cut.strictness)) ∧
      (∀ a b : Endpoint, a.Over d → b.Over d → a.touches b = b.touches a) ∧
      Std.TransCmp (fun i j : {i : Interval // i.Over d} => i.1.compare j.1) ∧
      ∀ i j : Interval, i.isEmpty → i.compare j = if j.isEmpty then .eq else .lt := by
  refine ⟨⟨transCmp_of_key _ Value.compare_eq_key, ⟨fun {v w} => (v.beq_iff_compare w).symm⟩⟩,
    fun {d} hd => ?_⟩
  obtain ⟨K, _, ⟨σ⟩⟩ := hd.exists_scale
  refine ⟨fun e he => he.over, fun i hi => hi.over, ?_, ?_, ?_, ?_, ?_⟩
  · exact transCmp_of_key (·.1.key σ) fun a b => Endpoint.compare_eq_key σ a.2 b.2
  · intro a b ha hb hside
    rw [Endpoint.compare, ha.domain_eq]
    exact Cut.compare_eq_eq_iff hside
  · intro a b ha hb
    rw [Endpoint.touches, Endpoint.touches, ha.domain_eq, hb.domain_eq]
    exact Cut.touches_comm hd ha.cut hb.cut
  · exact transCmp_of_key (·.1.key σ) fun i j => Interval.compare_eq_key σ i.2 j.2
  · intro i j hi
    unfold Interval.compare
    rw [hi]
    cases j.isEmpty <;> rfl

/-- The endpoint `≥ v` or `> v` over the decimals. -/
def fromDecimal (scaled : Int64) (scale : Nat) (t : Strictness) : Endpoint :=
  ⟨Scalar.decimal.domain, .finite (.decimal ((Decimal.ofScaled? scaled scale).getD .zero)) .lower t⟩

/-- `≥ 1.0` and `≥ 1.00` have one position, and `> 1.0` comes after both. -/
theorem orders_lawful_fromDecimal :
    let d := Scalar.decimal.domain
    let a := fromDecimal 10 1 .closed
    let b := fromDecimal 100 2 .closed
    let c := fromDecimal 10 1 .opened
    d.Ordered ∧ a.Over d ∧ b.Over d ∧ c.Over d ∧ a.compare b = .eq ∧ b.compare c = .lt ∧
      (a.compare c).isLE ∧ a.compare c ≠ .eq ∧ a.touches c = c.touches a ∧
      (Interval.empty d).Over d ∧ (Interval.empty d).compare (.unconstrained d) = .lt := by
  intro d a b c
  have hd := Scalar.decimal.ordered
  obtain ⟨hendpoint, hinterval, htrans, hposition, htouches, -, hempty⟩ := orders_lawful.2 hd
  have hbuilt : ∀ scaled scale t, (fromDecimal scaled scale t).Built (· = d) := by
    intro scaled scale t
    have hset : ((Endpoint.fresh d).setFinite .lower t
        (.decimal ((Decimal.ofScaled? scaled scale).getD .zero))).run.value =
        .ok (fromDecimal scaled scale t) := rfl
    exact .finite (.fresh rfl) hset
  have ha := hendpoint a (hbuilt _ _ _)
  have hb := hendpoint b (hbuilt _ _ _)
  have hc := hendpoint c (hbuilt _ _ _)
  have hab : a.compare b = .eq := (hposition a b ha hb rfl).2 (.inr ⟨.finite rfl, rfl⟩)
  have hbc : b.compare c = .lt := rfl
  have hac : (a.compare c).isLE := htrans.isLE_trans (a := ⟨a, ha⟩) (b := ⟨b, hb⟩) (c := ⟨c, hc⟩)
    (hab ▸ rfl) (hbc ▸ rfl)
  have hne : a.compare c ≠ .eq := by
    rw [ne_eq, hposition a c ha hc rfl]
    rintro (⟨-, h⟩ | ⟨-, h⟩) <;> cases h
  exact ⟨hd, ha, hb, hc, hab, hbc, hac, hne, htouches a c ha hc,
    hinterval _ (Interval.built_empty d), hempty _ _ rfl⟩

end SearchArgument
