import Mathlib.Data.List.Basic
import Mathlib.Tactic

namespace Granary.Base.Packing

def padding (x align : ℕ) : ℕ := if x % align ≠ 0 then align - x % align else 0

theorem padding_lt {x align : ℕ} (h : 0 < align) : padding x align < align := by
  unfold padding
  split_ifs <;> omega

theorem dvd_add_padding {x align : ℕ} (h : 0 < align) : align ∣ x + padding x align := by
  have hmod := Nat.mod_lt x h
  unfold padding
  split_ifs with hx
  · obtain ⟨q, hq⟩ : ∃ q, x = align * q + x % align := ⟨x / align, (Nat.div_add_mod x align).symm⟩
    exact ⟨q + 1, by rw [mul_add]; omega⟩
  · rw [Nat.add_zero]
    exact Nat.dvd_of_mod_eq_zero (not_not.1 hx)

theorem padding_of_dvd {x align : ℕ} (h : align ∣ x) : padding x align = 0 :=
  if_neg (not_not.2 (Nat.mod_eq_zero_of_dvd h))

theorem add_padding_le {x y align : ℕ} (h : 0 < align) (hxy : x ≤ y) (hy : align ∣ y) :
    x + padding x align ≤ y := by
  obtain ⟨a, ha⟩ := dvd_add_padding (x := x) h
  obtain ⟨b, rfl⟩ := hy
  have hlt := padding_lt (x := x) h
  rw [ha]
  apply Nat.mul_le_mul_left
  by_contra hba
  have hle : align * (b + 1) ≤ align * a := Nat.mul_le_mul_left align (by omega)
  rw [mul_add] at hle
  omega

/-- Something of a size and an alignment that gets a place. -/
structure Piece where
  size : ℕ
  align : ℕ
  align_pos : 0 < align

/-- The size and the alignment of a type, which are those of objects in memory. -/
structure ObjectType extends Piece where
  size_lt : size < 2 ^ 63
  align_pow : ∃ k < 63, align = 2 ^ k

theorem ObjectType.align_dvd (desc : ObjectType) : desc.align ∣ 2 ^ 63 := by
  obtain ⟨k, hk, halign⟩ := desc.align_pow
  rw [halign]
  exact pow_dvd_pow 2 hk.le

theorem ObjectType.align_le (desc : ObjectType) : desc.align ≤ 2 ^ 62 := by
  obtain ⟨k, hk, halign⟩ := desc.align_pow
  rw [halign]
  exact Nat.pow_le_pow_right two_pos (Nat.le_of_lt_succ hk)

abbrev piecesOf (descs : List ObjectType) : List Piece := descs.map fun desc ↦ desc.toPiece

theorem align_dvd_of_mem {descs : List ObjectType} {p : Piece} (h : p ∈ piecesOf descs) :
    p.align ∣ 2 ^ 63 := by
  obtain ⟨desc, -, rfl⟩ := List.mem_map.1 h
  exact desc.align_dvd

theorem align_le_of_mem {descs : List ObjectType} {p : Piece} (h : p ∈ piecesOf descs) :
    p.align ≤ 2 ^ 62 := by
  obtain ⟨desc, -, rfl⟩ := List.mem_map.1 h
  exact desc.align_le

/-- Pieces one after the other from a position on, each at the first aligned place. -/
def place : ℕ → List Piece → List (ℕ × Piece)
  | _, [] => []
  | x, p :: ps =>
    let offset := x + padding x p.align
    (offset, p) :: place (offset + p.size) ps

def finish : ℕ → List Piece → ℕ
  | x, [] => x
  | x, p :: ps => finish (x + padding x p.align + p.size) ps

/-- Aligned pieces that do not overlap and end in time. -/
structure Packed (placed : List (ℕ × Piece)) (limit : ℕ) : Prop where
  aligned (q : ℕ × Piece) : q ∈ placed → q.2.align ∣ q.1
  apart : placed.Pairwise fun p q ↦ p.1 + p.2.size ≤ q.1 ∨ q.1 + q.2.size ≤ p.1
  within (q : ℕ × Piece) : q ∈ placed → q.1 + q.2.size ≤ limit

theorem Packed.mono {placed : List (ℕ × Piece)} {limit limit' : ℕ} (h : Packed placed limit)
    (hle : limit ≤ limit') : Packed placed limit' :=
  ⟨h.aligned, h.apart, fun q hq ↦ (h.within q hq).trans hle⟩

/-- The largest alignment, which is zero if there is no piece. -/
def maxAlign (ps : List Piece) : ℕ := ps.foldl (fun align p ↦ max p.align align) 0

theorem maxAlign_concat (ps : List Piece) (p : Piece) :
    maxAlign (ps ++ [p]) = max p.align (maxAlign ps) := by
  rw [maxAlign, List.foldl_append]
  rfl

theorem maxAlign_le {ps : List Piece} {limit : ℕ} (h : ∀ p ∈ ps, p.align ≤ limit) :
    maxAlign ps ≤ limit := by
  induction ps using List.reverseRecOn with
  | nil => exact Nat.zero_le limit
  | append_singleton ps p ih =>
    rw [maxAlign_concat]
    exact max_le (h p (List.mem_append_right ps List.mem_cons_self))
      (ih fun q hq ↦ h q (List.mem_append_left _ hq))

theorem maxAlign_pos {ps : List Piece} (h : ps ≠ []) : 0 < maxAlign ps := by
  obtain ⟨front, last, rfl⟩ := (List.eq_nil_or_concat' ps).resolve_left h
  rw [maxAlign_concat]
  exact last.align_pos.trans_le (le_max_left _ _)

/-- The size of an object that holds the pieces, such that the next one is aligned as well. -/
def objectSize (ps : List Piece) : ℕ := finish 0 ps + padding (finish 0 ps) (maxAlign ps)

theorem le_finish (x : ℕ) (ps : List Piece) : x ≤ finish x ps := by
  induction ps generalizing x with
  | nil => exact le_rfl
  | cons p ps ih =>
    have hrest := ih (x + padding x p.align + p.size)
    rw [finish]
    omega

theorem finish_append (x : ℕ) (ps qs : List Piece) :
    finish x (ps ++ qs) = finish (finish x ps) qs := by
  induction ps generalizing x with
  | nil => rfl
  | cons p ps ih => exact ih _

theorem place_append (x : ℕ) (ps qs : List Piece) :
    place x (ps ++ qs) = place x ps ++ place (finish x ps) qs := by
  induction ps generalizing x with
  | nil => rfl
  | cons p ps ih =>
    rw [List.cons_append, place, place, ih]
    rfl

theorem le_of_mem_place {x : ℕ} {ps : List Piece} {q : ℕ × Piece} (hq : q ∈ place x ps) :
    x ≤ q.1 := by
  induction ps generalizing x with
  | nil => exact absurd hq List.not_mem_nil
  | cons p ps ih =>
    rcases List.mem_cons.1 hq with rfl | hq
    · exact Nat.le_add_right x _
    · have hle := ih hq
      omega

theorem packed_place (x : ℕ) (ps : List Piece) : Packed (place x ps) (finish x ps) := by
  induction ps generalizing x with
  | nil => exact ⟨fun q hq ↦ absurd hq List.not_mem_nil, .nil,
      fun q hq ↦ absurd hq List.not_mem_nil⟩
  | cons p ps ih =>
    obtain ⟨haligned, hapart, hwithin⟩ := ih (x + padding x p.align + p.size)
    refine ⟨?_, List.pairwise_cons.2 ⟨fun q hq ↦ Or.inl (le_of_mem_place hq), hapart⟩, ?_⟩
    · rintro q (_ | ⟨_, hq⟩)
      · exact dvd_add_padding p.align_pos
      · exact haligned q hq
    · rintro q (_ | ⟨_, hq⟩)
      · exact le_finish _ ps
      · exact hwithin q hq

section Wrap

variable (n : ℕ)

def wrapPlace : ℕ → List Piece → List (ℕ × Piece)
  | _, [] => []
  | x, p :: ps =>
    let offset := (x + padding x p.align) % n
    (offset, p) :: wrapPlace ((offset + p.size) % n) ps

def wrapFinish : ℕ → List Piece → ℕ
  | x, [] => x
  | x, p :: ps => wrapFinish (((x + padding x p.align) % n + p.size) % n) ps

theorem wrapPlace_append (x : ℕ) (ps qs : List Piece) :
    wrapPlace n x (ps ++ qs) = wrapPlace n x ps ++ wrapPlace n (wrapFinish n x ps) qs := by
  induction ps generalizing x with
  | nil => rfl
  | cons p ps ih =>
    rw [List.cons_append, wrapPlace, wrapPlace, ih]
    rfl

theorem wrapFinish_append (x : ℕ) (ps qs : List Piece) :
    wrapFinish n x (ps ++ qs) = wrapFinish n (wrapFinish n x ps) qs := by
  induction ps generalizing x with
  | nil => rfl
  | cons p ps ih => exact ih _

variable {n}

theorem wrapPlace_of_finish_lt {x : ℕ} {ps : List Piece} (h : finish x ps < n) :
    wrapPlace n x ps = place x ps ∧ wrapFinish n x ps = finish x ps := by
  induction ps generalizing x with
  | nil => exact ⟨rfl, rfl⟩
  | cons p ps ih =>
    have hle := le_finish (x + padding x p.align + p.size) ps
    rw [finish] at h
    have hoffset : (x + padding x p.align) % n = x + padding x p.align :=
      Nat.mod_eq_of_lt (by omega)
    have hend : (x + padding x p.align + p.size) % n = x + padding x p.align + p.size :=
      Nat.mod_eq_of_lt (by omega)
    rw [wrapPlace, wrapFinish, place, finish, hoffset, hend, (ih h).1, (ih h).2]
    exact ⟨rfl, rfl⟩

/-- Nothing wraps around when every piece ends in the lower half, and the alignments
divide a half. -/
theorem wrapPlace_of_le {half x : ℕ} {ps : List Piece} (hn : n = 2 * half) (hpos : 0 < half)
    (hx : x ≤ half)
    (hdvd : ∀ p ∈ ps, p.align ∣ half)
    (hle : ∀ q ∈ wrapPlace n x ps, q.1 + q.2.size ≤ half) :
    wrapPlace n x ps = place x ps ∧ wrapFinish n x ps = finish x ps ∧ finish x ps ≤ half := by
  induction ps generalizing x with
  | nil => exact ⟨rfl, rfl, hx⟩
  | cons p ps ih =>
    have hp := add_padding_le p.align_pos hx (hdvd p List.mem_cons_self)
    have hoffset : (x + padding x p.align) % n = x + padding x p.align :=
      Nat.mod_eq_of_lt (by omega)
    rw [wrapPlace, hoffset] at hle
    have hsize : x + padding x p.align + p.size ≤ half := hle _ List.mem_cons_self
    have hend : (x + padding x p.align + p.size) % n = x + padding x p.align + p.size :=
      Nat.mod_eq_of_lt (by omega)
    rw [hend] at hle
    obtain ⟨hplace, hfinish, hlast⟩ := ih hsize (fun q hq ↦ hdvd q (List.mem_cons_of_mem p hq))
      fun q hq ↦ hle q (List.mem_cons_of_mem _ hq)
    rw [wrapPlace, wrapFinish, place, finish, hoffset, hend, hplace, hfinish]
    exact ⟨rfl, rfl, hlast⟩

theorem wrapFinish_of_packed {limit : ℕ} {ps : List Piece} (hdvd : ∀ p ∈ ps, p.align ∣ 2 ^ 63)
    (h : Packed (wrapPlace (2 ^ 64) 0 ps) limit) (hlimit : limit ≤ 2 ^ 63) :
    wrapFinish (2 ^ 64) 0 ps = finish 0 ps ∧ finish 0 ps ≤ 2 ^ 63 := by
  have hle : ∀ q ∈ wrapPlace (2 ^ 64) 0 ps, q.1 + q.2.size ≤ 2 ^ 63 :=
    fun q hq ↦ (h.within q hq).trans hlimit
  exact (wrapPlace_of_le (by decide) (by decide) (Nat.zero_le _) hdvd hle).2

end Wrap

end Granary.Base.Packing
