/-!
# Bytes

A buffer, the content of a file and a name in a directory are all finite
sequences of bytes.  They are kept as lists: the layout of an archive is then
said with `++`, and a place in it with `drop` and `take`, for which the
standard library has its lemmas.

`slice` is the one way in which a part of a buffer is looked at.  It is total;
`length_slice` says when it has the length that was asked for, and
`slice_append_right` and `slice_append_exact` say what it sees in a buffer that
was put together by `++`.
-/

namespace FlatArchive

/-- Bytes in order. -/
abbrev Bytes := List UInt8

namespace Bytes

/-- The `length` bytes that start at `start`, or as many of them as there are. -/
def slice (bytes : Bytes) (start length : Nat) : Bytes :=
  (bytes.drop start).take length

theorem length_slice (bytes : Bytes) (start length : Nat)
    (h : start + length ≤ bytes.length) :
    (bytes.slice start length).length = length := by
  simp only [slice, List.length_take, List.length_drop]
  omega

/-- A slice past the first part of a buffer is a slice of the second part. -/
theorem slice_append_right (front back : Bytes) (start length : Nat) :
    slice (front ++ back) (front.length + start) length =
      back.slice start length := by
  simp [slice]

/-- A slice that covers the second of three parts is that part. -/
theorem slice_append_exact (front middle back : Bytes) :
    slice (front ++ (middle ++ back)) front.length middle.length = middle := by
  simp [slice]

/-- Bytes past the end of a slice do not matter to it. -/
theorem slice_append_left (front back : Bytes) (start length : Nat)
    (h : start + length ≤ front.length) :
    slice (front ++ back) start length = front.slice start length := by
  have hd : start ≤ front.length := by omega
  have ht : length ≤ (front.drop start).length := by
    rw [List.length_drop]
    omega
  rw [slice, slice, List.drop_append_of_le_length hd,
    List.take_append_of_le_length ht]

end Bytes

end FlatArchive
