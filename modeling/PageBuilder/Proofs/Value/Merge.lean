import PageBuilder.Proofs.Double.Rank
import PageBuilder.Proofs.Value.Plain

/-!
What comes of fields into which others are put.

* `Atom.alike_iff`: atoms are alike that are one number, or the same and not foreign;
* `Key.alike_comm`, `Key.alike_trans`: the order in which keys are compared does not matter;
* `Fields.renewed`, `Fields.merge_eq`: fields keep their places and take the values of the news, and
  what is new comes last;
* `Fields.merge_merge_iff`: the same news change nothing a second time, just if all their keys are
  like themselves.
-/

namespace PageBuilder

/-! ## Atoms -/

namespace Atom

/-- The size of a number of any kind, in units of the smallest magnitude. -/
def units? : Atom → Option Int
  | float x => x.units
  | a => a.int?.map (· * Double.one)

theorem float_alike_iff (x y : Double) : (Atom.float x).alike (.float y) = true ↔
    x = y ∨ ∃ u, x.units = some u ∧ y.units = some u := by
  cases x with
  | finite =>
    cases y with
    | finite =>
      simp only [alike, same, Double.sameNumber, Double.units, beq_iff_eq]
      constructor
      · exact fun h => .inr ⟨_, h, rfl⟩
      · rintro (h | ⟨u, hx, hy⟩)
        · cases h
          rfl
        · exact hx.trans hy.symm
    | _ => simp [alike, same, Double.sameNumber, Double.units]
  | _ => cases y <;> simp [alike, same, Double.sameNumber, Double.units]

theorem number_cases (a : Atom) :
    (∃ n, a.int? = some n) ∨ (∃ x, a = .float x) ∨ a.int? = none ∧ ∀ x, a ≠ .float x := by
  cases a with
  | bool b => exact .inl ⟨_, rfl⟩
  | int n => exact .inl ⟨n, rfl⟩
  | float x => exact .inr (.inl ⟨x, rfl⟩)
  | _ => exact .inr (.inr ⟨rfl, nofun⟩)

section Numbers

variable {a b : Atom}

theorem units?_of_int? {n : Int} (ha : a.int? = some n) : a.units? = some (n * Double.one) := by
  cases a with
  | float x => cases ha
  | _ => exact congrArg (Option.map (· * (Double.one : Int))) ha

theorem alike_of_int? {m n : Int} (ha : a.int? = some m) (hb : b.int? = some n) :
    a.alike b = (m == n) := by
  cases a <;> cases b <;> simp_all [alike, same, int?]

theorem alike_float_iff_of_int? {n : Int} (ha : a.int? = some n) (y : Double) :
    a.alike (.float y) = true ↔ y.units = some (n * Double.one) := by
  have hsame : a.alike (.float y) = y.isInteger n := by
    cases a <;> cases ha <;> rfl
  rw [hsame, Double.isInteger, beq_iff_eq]

theorem float_alike_iff_of_int? {n : Int} (hb : b.int? = some n) (x : Double) :
    (Atom.float x).alike b = true ↔ x.units = some (n * Double.one) := by
  have hsame : (Atom.float x).alike b = x.isInteger n := by
    cases b <;> cases hb <;> cases x <;> rfl
  rw [hsame, Double.isInteger, beq_iff_eq]

theorem units?_of_no_number (ha : a.int? = none ∧ ∀ x, a ≠ .float x) : a.units? = none := by
  rw [units?, ha.1]
  · rfl
  · exact ha.2

/-- What is no number is like nothing else, and foreign things not even like themselves. -/
theorem alike_of_no_number (h : (a.int? = none ∧ ∀ x, a ≠ .float x) ∨
    b.int? = none ∧ ∀ x, b ≠ .float x) : a.alike b = true ↔ a = b ∧ a ≠ .foreign := by
  rcases h with ⟨hint, hfloat⟩ | ⟨hint, hfloat⟩
  · cases a with
    | bool c => cases hint
    | int n => cases hint
    | float x => exact absurd rfl (hfloat x)
    | _ => cases b <;> simp [alike, same, int?]
  · cases b with
    | bool c => cases hint
    | int n => cases hint
    | float x => exact absurd rfl (hfloat x)
    | _ => cases a <;> simp [alike, same, int?]

end Numbers

theorem alike_iff (a b : Atom) : a.alike b = true ↔
    (a = b ∧ a ≠ .foreign) ∨ ∃ u, a.units? = some u ∧ b.units? = some u := by
  rcases a.number_cases with ⟨m, ha⟩ | ⟨x, rfl⟩ | ha
  · rcases b.number_cases with ⟨n, hb⟩ | ⟨y, rfl⟩ | hb
    · have hone : (Double.one : Int) ≠ 0 := Int.natCast_ne_zero.mpr (Nat.ne_of_gt Double.one_pos)
      rw [alike_of_int? ha hb, units?_of_int? ha, units?_of_int? hb, beq_iff_eq]
      constructor
      · rintro rfl
        exact .inr ⟨_, rfl, rfl⟩
      · rintro (⟨rfl, -⟩ | ⟨u, hm, hn⟩)
        · exact Option.some.inj (ha.symm.trans hb)
        · exact Int.eq_of_mul_eq_mul_right hone (Option.some.inj (hm.trans hn.symm))
    · rw [alike_float_iff_of_int? ha, units?_of_int? ha]
      constructor
      · exact fun h => .inr ⟨_, rfl, h⟩
      · rintro (⟨rfl, -⟩ | ⟨u, hm, hy⟩)
        · cases ha
        · exact hy.trans hm.symm
    · rw [alike_of_no_number (.inr hb), units?_of_no_number hb]
      exact ⟨.inl, fun h => h.resolve_right nofun⟩
  · rcases b.number_cases with ⟨n, hb⟩ | ⟨y, rfl⟩ | hb
    · rw [float_alike_iff_of_int? hb, units?_of_int? hb]
      constructor
      · exact fun h => .inr ⟨_, h, rfl⟩
      · rintro (⟨rfl, -⟩ | ⟨u, hx, hn⟩)
        · cases hb
        · exact hx.trans hn.symm
    · rw [float_alike_iff, Atom.float.injEq]
      exact or_congr_left (and_iff_left nofun).symm
    · rw [alike_of_no_number (.inr hb), units?_of_no_number hb]
      exact ⟨.inl, fun h => h.resolve_right nofun⟩
  · rw [alike_of_no_number (.inl ha), units?_of_no_number ha]
    exact ⟨.inl, fun h => h.resolve_right nofun⟩

theorem alike_comm (a b : Atom) : a.alike b = b.alike a := by
  have hswap : ∀ a b : Atom, a.alike b = true → b.alike a = true := by
    intro a b h
    rw [alike_iff] at h ⊢
    rcases h with ⟨rfl, hne⟩ | ⟨u, ha, hb⟩
    · exact .inl ⟨rfl, hne⟩
    · exact .inr ⟨u, hb, ha⟩
  rw [Bool.eq_iff_iff]
  exact ⟨hswap a b, hswap b a⟩

theorem alike_trans {a b c : Atom} (h : a.alike b = true) (h' : b.alike c = true) :
    a.alike c = true := by
  rw [alike_iff] at h h' ⊢
  rcases h with ⟨rfl, -⟩ | ⟨u, ha, hb⟩
  · exact h'
  · rcases h' with ⟨rfl, -⟩ | ⟨w, hb', hc⟩
    · exact .inr ⟨u, ha, hb⟩
    · obtain rfl : u = w := Option.some.inj (hb.symm.trans hb')
      exact .inr ⟨u, ha, hc⟩

end Atom

/-! ## Keys -/

namespace Key

mutual

theorem alike_comm (j k : Key) : j.alike k = k.alike j := by
  cases j with
  | atom a =>
    cases k with
    | atom b => exact a.alike_comm b
    | tuple ys => rfl
  | tuple xs =>
    cases k with
    | atom b => rfl
    | tuple ys => exact allAlike_comm xs ys

theorem allAlike_comm (xs ys : List Key) : allAlike xs ys = allAlike ys xs := by
  cases xs with
  | nil => cases ys <;> rfl
  | cons x xs =>
    cases ys with
    | nil => rfl
    | cons y ys => rw [allAlike, allAlike, alike_comm x y, allAlike_comm xs ys]

end

mutual

theorem alike_trans (i j k : Key) (h : i.alike j = true) (h' : j.alike k = true) :
    i.alike k = true := by
  cases i with
  | atom a =>
    cases j with
    | atom b =>
      cases k with
      | atom c => exact Atom.alike_trans h h'
      | tuple zs => cases h'
    | tuple ys => cases h
  | tuple xs =>
    cases j with
    | atom b => cases h
    | tuple ys =>
      cases k with
      | atom c => cases h'
      | tuple zs => exact allAlike_trans xs ys zs h h'

theorem allAlike_trans (xs ys zs : List Key) (h : allAlike xs ys = true)
    (h' : allAlike ys zs = true) : allAlike xs zs = true := by
  cases xs with
  | nil =>
    cases ys with
    | nil => exact h'
    | cons y ys => cases h
  | cons x xs =>
    cases ys with
    | nil => cases h
    | cons y ys =>
      cases zs with
      | nil => cases h'
      | cons z zs =>
        rw [allAlike, Bool.and_eq_true] at h h' ⊢
        exact ⟨alike_trans x y z h.1 h'.1, allAlike_trans xs ys zs h.2 h'.2⟩

end

/-- Keys that are alike are like the same keys. -/
theorem alike_congr {j k : Key} (h : j.alike k = true) (i : Key) : i.alike j = i.alike k := by
  rw [Bool.eq_iff_iff]
  refine ⟨fun hi => alike_trans i j k hi h, fun hi => ?_⟩
  rw [alike_comm] at h
  exact alike_trans i k j hi h

end Key

/-! ## Fields -/

namespace Fields

theorem find?_cons (j : Key) (v : Value) (rest : Fields) (k : Key) :
    find? ((j, v) :: rest) k = if j.alike k then some v else find? rest k := rfl

theorem find?_eq_none_iff {fields : Fields} {k : Key} :
    find? fields k = none ↔ ∀ f ∈ fields, f.1.alike k = false := by
  induction fields with
  | nil => simp [find?]
  | cons f rest ih =>
    obtain ⟨j, v⟩ := f
    rw [find?_cons, List.forall_mem_cons]
    cases hj : j.alike k with
    | true => simp
    | false => simpa using ih

theorem isNone_find?_congr {fields others : Fields} (k : Key)
    (h : fields.map Prod.fst = others.map Prod.fst) :
    (find? fields k).isNone = (find? others k).isNone := by
  have hall : ∀ gs : Fields, (find? gs k).isNone = true ↔ ∀ j ∈ gs.map Prod.fst, j.alike k = false := by
    intro gs
    rw [Option.isNone_iff_eq_none, find?_eq_none_iff, List.forall_mem_map]
  rw [Bool.eq_iff_iff, hall, hall, h]

/-- A key that was met is given the value in the place where it was met. -/
theorem put_of_met {fields : Fields} (h : Distinct fields) {k : Key} (v : Value)
    (hmet : ∃ f ∈ fields, f.1.alike k = true) :
    put fields k v = fields.map fun f => if f.1.alike k then (f.1, v) else f := by
  induction fields with
  | nil =>
    obtain ⟨f, hf, -⟩ := hmet
    cases hf
  | cons f rest ih =>
    obtain ⟨j, w⟩ := f
    obtain ⟨hfirst, hrest⟩ := List.pairwise_cons.mp h
    rw [put, List.map_cons]
    by_cases hj : j.alike k = true
    · -- no later key is like this one, since the keys are distinct
      have hlater : ∀ f ∈ rest, f.1.alike k = false := by
        intro f hf
        rw [← Key.alike_congr hj, Key.alike_comm]
        exact hfirst f hf
      rw [if_pos hj, if_pos hj]
      refine congrArg _ ((List.map_congr_left fun f hf => ?_).trans (List.map_id' _)).symm
      rw [hlater f hf]
      rfl
    · obtain ⟨f, hf, hk⟩ := hmet
      rw [if_neg hj, if_neg hj, ih hrest]
      rcases List.mem_cons.mp hf with rfl | hf
      · exact absurd hk hj
      · exact ⟨f, hf, hk⟩

/-- The fields of an object after news: every field keeps its place, and its value unless the news
have another one; what is new comes last, in its order. -/
def renewed (old news : Fields) : Fields :=
  old.map (fun f => (f.1, (find? news f.1).getD f.2)) ++
    news.filter fun f => (find? old f.1).isNone

section Renewed

variable {old rest : Fields} {k : Key} {v : Value} (hlater : ∀ f ∈ rest, k.alike f.1 = false)

include hlater

theorem find?_eq_none_of_later : find? rest k = none :=
  find?_eq_none_iff.mpr fun f hf => (Key.alike_comm f.1 k).trans (hlater f hf)

/-- A field with a known name is renewed in its place. -/
theorem renewed_put_of_met (hold : Distinct old) (hmet : ∃ f ∈ old, f.1.alike k = true) :
    renewed (put old k v) rest = renewed old ((k, v) :: rest) := by
  have hkeys : (put old k v).map Prod.fst = old.map Prod.fst := map_fst_put v hmet
  have hfound : (find? old k).isNone = false := by
    rw [Bool.eq_false_iff, Ne, Option.isNone_iff_eq_none, find?_eq_none_iff]
    obtain ⟨f, hf, hk⟩ := hmet
    intro hno
    rw [hno f hf] at hk
    cases hk
  unfold renewed
  rw [List.filter_cons_of_neg (by simp [hfound]), put_of_met hold v hmet, List.map_map]
  refine congrArg₂ (· ++ ·) (List.map_congr_left fun f _ => ?_) ?_
  · rw [Function.comp_apply, find?_cons, Key.alike_comm k]
    by_cases hk : f.1.alike k = true
    · have hgone : find? rest f.1 = none := by
        refine find?_eq_none_of_later fun g hg => ?_
        rw [Key.alike_comm, Key.alike_congr hk, Key.alike_comm]
        exact hlater g hg
      rw [if_pos hk, if_pos hk, hgone]
      rfl
    · rw [if_neg hk, if_neg hk]
  · refine List.filter_congr fun f _ => ?_
    rw [← put_of_met hold v hmet]
    exact isNone_find?_congr f.1 hkeys

/-- A field with a new name comes next after the old ones. -/
theorem renewed_put_of_new (hnew : ∀ f ∈ old, f.1.alike k = false) :
    renewed (put old k v) rest = renewed old ((k, v) :: rest) := by
  have hnone : find? old k = none := find?_eq_none_iff.mpr hnew
  unfold renewed
  rw [put_of_new v hnew, List.map_append, List.map_singleton, List.append_assoc,
    List.filter_cons_of_pos (by simp [hnone]), find?_eq_none_of_later hlater]
  refine congrArg₂ (· ++ ·) (List.map_congr_left fun f hf => ?_) (congrArg _ ?_)
  · rw [find?_cons, Key.alike_comm, hnew f hf]
    rfl
  · refine List.filter_congr fun f hf => ?_
    rw [Bool.eq_iff_iff, Option.isNone_iff_eq_none, Option.isNone_iff_eq_none,
      find?_eq_none_iff, find?_eq_none_iff, List.forall_mem_append, List.forall_mem_singleton]
    exact and_iff_left (hlater f hf)

end Renewed

theorem merge_eq {old news : Fields} (hold : Distinct old) (hnews : Distinct news) :
    merge old news = renewed old news := by
  induction news generalizing old with
  | nil => simp [merge, renewed, find?]
  | cons g rest ih =>
    obtain ⟨k, v⟩ := g
    obtain ⟨hfirst, hrest⟩ := List.pairwise_cons.mp hnews
    refine (ih (hold.put k v) hrest).trans ?_
    by_cases hmet : ∃ f ∈ old, f.1.alike k = true
    · exact renewed_put_of_met hfirst hold hmet
    · exact renewed_put_of_new hfirst fun f hf =>
        Bool.eq_false_iff.mpr fun hk => hmet ⟨f, hf, hk⟩

/-- A name that the news have is read of them. -/
theorem get?_merge_of_mem {old news : Fields} (hnews : Distinct news) {name : String} {v : Value}
    (hv : (Key.text name, v) ∈ news) : get? (merge old news) name = some v := by
  have hget := get?_of_mem hnews hv
  have hself : merge [] news = news := ofPairs_of_distinct hnews
  have hcongr : get? (merge old news) name = get? (merge [] news) name :=
    get?_merge_congr (.inr (Option.isSome_iff_exists.mpr ⟨v, hget⟩))
  rw [hcongr, hself, hget]

theorem find?_of_mem {fields : Fields} (h : Distinct fields) {f : Key × Value} (hf : f ∈ fields)
    (hself : f.1.alike f.1 = true) : find? fields f.1 = some f.2 := by
  induction fields with
  | nil => cases hf
  | cons g rest ih =>
    obtain ⟨hfirst, hrest⟩ := List.pairwise_cons.mp h
    rw [find?_cons]
    rcases List.mem_cons.mp hf with rfl | hf
    · rw [if_pos hself]
    · rw [hfirst f hf]
      exact ih hrest hf

/-- The keys of the news are found in the merged fields if they can be found at all. -/
theorem find?_merge_ne_none {old news : Fields} (hold : Distinct old) (hnews : Distinct news)
    {f : Key × Value} (hf : f ∈ news) (hself : f.1.alike f.1 = true) :
    find? (merge old news) f.1 ≠ none := by
  rw [Ne, find?_eq_none_iff, merge_eq hold hnews, renewed, List.forall_mem_append]
  rintro ⟨hkept, hadded⟩
  by_cases hnone : find? old f.1 = none
  · have hno := hadded f (List.mem_filter.mpr ⟨hf, by rw [hnone]; rfl⟩)
    rw [hself] at hno
    cases hno
  · rw [List.forall_mem_map] at hkept
    exact hnone (find?_eq_none_iff.mpr hkept)

/-- To put the same news in again changes nothing, just if all their keys are like themselves. A key
that is not is a new one each time. -/
theorem merge_merge_iff {old news : Fields} (hold : Distinct old) (hnews : Distinct news) :
    merge (merge old news) news = merge old news ↔ ∀ f ∈ news, f.1.alike f.1 = true := by
  have hagain := merge_eq (hold.merge news) hnews
  constructor
  · intro heq f hf
    have hlength := congrArg List.length (heq.symm.trans hagain)
    rw [renewed, List.length_append, List.length_map] at hlength
    have hnil := List.length_eq_zero_iff.mp (Nat.left_eq_add.mp hlength)
    have hfound := List.filter_eq_nil_iff.mp hnil f hf
    rw [Option.isNone_iff_eq_none] at hfound
    obtain ⟨w, hw⟩ := Option.ne_none_iff_exists'.mp hfound
    obtain ⟨j, -, hj⟩ := mem_of_find? hw
    rw [← Key.alike_congr hj, Key.alike_comm]
    exact hj
  · intro hself
    have hnil : (news.filter fun f => (find? (merge old news) f.1).isNone) = [] := by
      refine List.filter_eq_nil_iff.mpr fun f hf => ?_
      rw [Option.isNone_iff_eq_none]
      exact find?_merge_ne_none hold hnews hf (hself f hf)
    have hvalue : ∀ f ∈ merge old news, (f.1, (find? news f.1).getD f.2) = f := by
      intro f hf
      rw [merge_eq hold hnews, renewed, List.mem_append] at hf
      rcases hf with hf | hf
      · obtain ⟨g, -, rfl⟩ := List.mem_map.mp hf
        cases find? news g.1 <;> rfl
      · have hmem := (List.mem_filter.mp hf).1
        rw [find?_of_mem hnews hmem (hself f hmem)]
        rfl
    rw [hagain, renewed, hnil, List.append_nil]
    exact (List.map_congr_left hvalue).trans (List.map_id' _)

end Fields

end PageBuilder
