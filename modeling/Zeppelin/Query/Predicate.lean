import Zeppelin.Query.ValueHash

/-! property_graph/query/value.rs -/

namespace Zeppelin.Query

def Truth.and : Truth → Truth → Truth
  | .false,_ => .false
  | _,.false => .false
  | .true,.true => .true
  | _,_ => .unknown

def equalTruth (order : Option Ordering) : Truth := if order = some .eq then .true else .false

mutual

def QueryValue.predicateEqual : QueryValue → QueryValue → Truth
  | .null,_ => .unknown
  | _,.null => .unknown
  | .nodeRef a,.nodeRef b => equalTruth (some (compare a b))
  | .relRef a,.relRef b => equalTruth (some (compare a b))
  | .map a,.map b => if a.length = b.length then predicateElements .true a b else .false
  | .list a,.list b => if a.length = b.length then predicateElements .true a b else .false
  | .string a,.string b => equalTruth (some (compareBytes a b))
  | .bool a,.bool b => equalTruth (some (compare a b))
  | .i64 a,.i64 b => equalTruth (some (compare a.toInt b.toInt))
  | .i64 a,.f64 b => equalTruth (integerFloat a b)
  | .f64 a,.i64 b => equalTruth ((integerFloat b a).map Ordering.swap)
  | .f64 a,.f64 b => equalTruth (partialCmp a b)
  | _,_ => .false

/-- The loop of `list_predicate`: a false element ends it. -/
def predicateElements (answer : Truth) : List QueryValue → List QueryValue → Truth
  | a::as,b::bs =>
    if answer.and (a.predicateEqual b) = .false then .false
    else predicateElements (answer.and (a.predicateEqual b)) as bs
  | _,_ => answer

end

mutual

def QueryValue.definite : QueryValue → Bool
  | .null => false
  | .f64 bits => !isNan bits
  | .list values | .map values => definiteList values
  | _ => true

def definiteList : List QueryValue → Bool
  | [] => true
  | value::values => value.definite && definiteList values

end

theorem and_eq_true {a b : Truth} : a.and b = .true ↔ a = .true ∧ b = .true := by
  cases a <;> cases b <;> decide

variable {order : Option Ordering} {a b : QueryValue} {integer : Int64} {bits : UInt64}
  {as bs : List QueryValue}

theorem equalTruth_eq_true : equalTruth order = .true ↔ order = some .eq := by
  unfold equalTruth
  split_ifs with h
  · exact iff_of_true rfl h
  · exact iff_of_false nofun h

theorem equalTruth_some {order : Ordering} : equalTruth (some order) = .true ↔ order = .eq := by
  rw [equalTruth_eq_true,Option.some.injEq]

theorem predicateEqual_of_rank_ne (h : a.rank ≠ b.rank) : a.predicateEqual b ≠ .true := by
  cases a <;> cases b <;> first
    | exact absurd rfl h
    | (rw [QueryValue.predicateEqual] <;> nofun)

theorem integerFloat_map_swap : (integerFloat integer bits).map Ordering.swap = some .eq ↔
      integerFloat integer bits = some .eq := by
  cases integerFloat integer bits with
  | none => exact Iff.rfl
  | some order => cases order <;> decide

theorem getD_order (other : Ordering) (h : other ≠ .eq) :
    order.getD other = .eq ↔ order = some .eq := by
  cases order with
  | none => exact iff_of_false h nofun
  | some order => exact (Option.some.injEq order .eq).symm.to_iff

theorem partialCmp_eq_some {a b : UInt64} :
    partialCmp a b = some .eq ↔ floatOrder a b = .eq ∧ isNan a = false ∧ isNan b = false := by
  unfold floatOrder partialCmp
  cases isNan a <;> cases isNan b <;> simp

theorem integerFloat_definite : integerFloat integer bits = some .eq ↔
      integerFloat integer bits = some .eq ∧ isNan bits = false :=
  ⟨fun h => ⟨h,(integerFloat_eq_some.mp h).1⟩,And.left⟩

theorem answer_of_predicateElements {answer : Truth}
    (h : predicateElements answer as bs = .true) : answer = .true := by
  induction as generalizing answer bs with
  | nil => exact h
  | cons a as ih =>
    cases bs with
    | nil => exact h
    | cons b bs =>
      rw [predicateElements] at h
      split_ifs at h
      exact (and_eq_true.mp (ih h)).1

theorem predicateElements_cons : predicateElements .true (a::as) (b::bs) = .true ↔
      a.predicateEqual b = .true ∧ predicateElements .true as bs = .true := by
  rw [predicateElements]
  constructor
  · intro h
    split_ifs at h
    have hfirst:=(and_eq_true.mp (answer_of_predicateElements h)).2
    rw [hfirst] at h
    exact ⟨hfirst,h⟩
  · intro ⟨hfirst,hrest⟩
    rw [hfirst]
    exact hrest

mutual

theorem predicateEqual_iff : ∀ (a b : QueryValue),a.predicateEqual b = .true ↔
    a.order b = .eq ∧ a.definite = true ∧ b.definite = true
  | a,b => by
    by_cases hrank : a.rank = b.rank
    · cases a <;> cases b <;> first
        | (simp [QueryValue.rank] at hrank; done)
        | clear hrank
      case null.null => exact iff_of_false nofun fun h => nomatch h.2.1
      case bool.bool a b =>
        rw [QueryValue.predicateEqual,equalTruth_some]
        simp [QueryValue.order,QueryValue.definite]
      case i64.i64 a b =>
        rw [QueryValue.predicateEqual,equalTruth_some]
        simp [QueryValue.order,QueryValue.definite]
      case i64.f64 a b =>
        rw [QueryValue.predicateEqual,equalTruth_eq_true,QueryValue.order,getD_order .lt nofun,
          integerFloat_definite]
        simp [QueryValue.definite]
      case f64.i64 a b =>
        rw [QueryValue.predicateEqual,equalTruth_eq_true,QueryValue.order,getD_order .gt nofun,
          integerFloat_map_swap,integerFloat_definite]
        simp [QueryValue.definite]
      case f64.f64 a b =>
        rw [QueryValue.predicateEqual,equalTruth_eq_true,QueryValue.order,partialCmp_eq_some]
        simp [QueryValue.definite]
      case string.string a b =>
        rw [QueryValue.predicateEqual,equalTruth_some]
        simp [QueryValue.order,QueryValue.definite]
      case list.list a b =>
        rw [QueryValue.predicateEqual,QueryValue.order,QueryValue.definite,QueryValue.definite]
        exact predicateElements_iff a b
      case map.map a b =>
        rw [QueryValue.predicateEqual,QueryValue.order,QueryValue.definite,QueryValue.definite]
        exact predicateElements_iff a b
      case nodeRef.nodeRef a b =>
        rw [QueryValue.predicateEqual,equalTruth_some]
        simp [QueryValue.order,QueryValue.definite]
      case relRef.relRef a b =>
        rw [QueryValue.predicateEqual,equalTruth_some]
        simp [QueryValue.order,QueryValue.definite]
    · apply iff_of_false (predicateEqual_of_rank_ne hrank)
      intro ⟨horder,_⟩
      rw [order_of_rank_ne hrank] at horder
      exact hrank (compare_eq_iff_eq.mp horder)

theorem predicateElements_iff : ∀ (as bs : List QueryValue),
    (if as.length = bs.length then predicateElements .true as bs else .false) = .true ↔
      orderList as bs = .eq ∧ definiteList as = true ∧ definiteList bs = true
  | [],[] => by simp [predicateElements,orderList,definiteList]
  | [],_::_ => by simp [orderList]
  | _::_,[] => by simp [orderList]
  | a::as,b::bs => by
    have hfirst:=predicateEqual_iff a b
    have hrest:=predicateElements_iff as bs
    rw [orderList,Ordering.then_eq_eq,definiteList,definiteList,Bool.and_eq_true,
      Bool.and_eq_true]
    have hlengths : (a::as).length = (b::bs).length ↔ as.length = bs.length := Nat.succ_inj
    by_cases hlength : as.length = bs.length
    · rw [if_pos (hlengths.mpr hlength),predicateElements_cons,hfirst]
      rw [if_pos hlength] at hrest
      rw [hrest]
      tauto
    · rw [if_neg (hlengths.not.mpr hlength)]
      rw [if_neg hlength] at hrest
      constructor
      · nofun
      · intro ⟨horder,ha,hb⟩
        exact hrest.mpr ⟨horder.2,ha.2,hb.2⟩

end

theorem predicateEqual_comm (a b : QueryValue) :
    a.predicateEqual b = .true ↔ b.predicateEqual a = .true := by
  rw [predicateEqual_iff,predicateEqual_iff,order_swap,Ordering.swap_eq_eq]
  tauto

theorem hashInto_of_predicateEqual {a b : QueryValue} (h : a.predicateEqual b = .true) :
    a.hashInto = b.hashInto :=
  hashInto_congr a b ((predicateEqual_iff a b).mp h).1

end Zeppelin.Query
