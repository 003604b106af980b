import Nachos.Network.Basic

/-!
This module contains the format of the packets: the two headers and the data that `PostOffice::Send` and
`Network::Send` put into a datagram are those that `CheckPktAvail` and `PostalDelivery` get out of it.
-/

namespace Nachos

open Bytes (word toWord bcopy)

namespace PostOffice

namespace Header

@[simp]
theorem length_bytes (hdr : Header) : hdr.bytes.length = headerSize := by
  simp [bytes, headerSize]

theorem ofBytes_bytes_append (hdr : Header) (rest : List UInt8) : ofBytes (hdr.bytes ++ rest) = hdr := by
  have hsource : (hdr.bytes ++ rest).drop 4 = word hdr.source.toUInt32 ++ (word hdr.length ++ rest) := by
    simp [bytes, List.drop_left']
  have hlength : (hdr.bytes ++ rest).drop 8 = word hdr.length ++ rest := by
    rw [show 8 = 4 + 4 from rfl, ← List.drop_drop, hsource]
    exact List.drop_left' (by simp)
  have hdest : hdr.bytes ++ rest =
      word hdr.dest.toUInt32 ++ (word hdr.source.toUInt32 ++ (word hdr.length ++ rest)) := by
    simp [bytes]
  unfold ofBytes
  rw [hsource, hlength, hdest]
  simp

theorem ofBytes_of_isPrefix {hdr : Header} {buffer : List UInt8} (h : hdr.bytes <+: buffer)
    : ofBytes buffer = hdr := by
  obtain ⟨rest, rfl⟩ := h
  exact ofBytes_bytes_append hdr rest

end Header

namespace Letter

variable {numBoxes : Nat} (letter : Letter numBoxes) (netAddr : Int32)

def pktHdr : Header where
  dest := letter.dest
  source := netAddr
  length := letter.mailHdr.length + 12

def payload : List UInt8 :=
  letter.mailHdr.bytes ++ letter.data.take letter.mailHdr.length.toNat

def mail : Mail where
  pktHdr := letter.pktHdr netAddr
  mailHdr := letter.mailHdr
  data := letter.data.take letter.mailHdr.length.toNat

def box : Nat := letter.mailHdr.dest.toInt.toNat

theorem length_pktHdr
    : (letter.pktHdr netAddr).length.toNat = headerSize + letter.mailHdr.length.toNat := by
  have hle := letter.length_le
  have hsize : maxMailSize = 40 := rfl
  have hheader : headerSize = 12 := rfl
  rw [pktHdr, UInt32.toNat_add]
  change (letter.mailHdr.length.toNat + 12) % 2 ^ 32 = _
  omega

theorem length_payload : letter.payload.length = (letter.pktHdr netAddr).length.toNat := by
  have hdata := letter.length_data
  rw [payload, length_pktHdr, List.length_append, Header.length_bytes, List.length_take]
  omega

theorem length_pktHdr_le : (letter.pktHdr netAddr).length.toNat ≤ maxPacketSize := by
  have hle := letter.length_le
  have hsize : maxPacketSize = headerSize + maxMailSize := rfl
  rw [length_pktHdr]
  omega

end Letter

theorem append_isPrefix_bcopy {header src dst : List UInt8} {length : Nat} (h : header <+: dst)
    : header ++ src.take length <+: bcopy src length dst header.length := by
  obtain ⟨rest, rfl⟩ := h
  rw [bcopy, List.take_left]
  exact List.prefix_append _ _

theorem isPrefix_bcopy {src dst : List UInt8} {length : Nat} (hsrc : src.length = length)
    : src <+: bcopy src length dst 0 := by
  subst hsrc
  simp [bcopy]

section

variable {numBoxes : Nat} {letter : Letter numBoxes} {netAddr : Int32} {data datagram : List UInt8}

def Carries (netAddr : Int32) (letter : Letter numBoxes) (datagram : List UInt8) : Prop :=
  datagram.length = maxWireSize ∧ (letter.pktHdr netAddr).bytes ++ letter.payload <+: datagram

theorem carries_bcopy {buffer : List UInt8} (hbuffer : buffer.length = maxWireSize)
    (hdata : letter.payload <+: data)
    : Carries netAddr letter
        (bcopy data (letter.pktHdr netAddr).length.toNat
          (bcopy (letter.pktHdr netAddr).bytes headerSize buffer 0) headerSize) := by
  have hlength := letter.length_payload netAddr
  have hle := letter.length_pktHdr_le netAddr
  have hsize : maxWireSize = headerSize + maxPacketSize := rfl
  have htake : data.take (letter.pktHdr netAddr).length.toNat = letter.payload := by
    rw [← hlength]
    exact (List.prefix_iff_eq_take.mp hdata).symm
  have hheader : (bcopy (letter.pktHdr netAddr).bytes headerSize buffer 0).length = maxWireSize := by
    rw [Bytes.length_bcopy (by simp) (by omega), hbuffer]
  have hpayload := hdata.length_le
  constructor
  . rw [Bytes.length_bcopy (by omega) (by omega), hheader]
  . rw [← htake, ← Header.length_bytes (letter.pktHdr netAddr)]
    exact append_isPrefix_bcopy (isPrefix_bcopy rfl)

def openMail (pktHdr : Header) (buffer : List UInt8) : Mail where
  pktHdr := pktHdr
  mailHdr := Header.ofBytes buffer
  data := (buffer.drop headerSize).take (Header.ofBytes buffer).length.toNat

def readMail (datagram : List UInt8) : Mail :=
  openMail (Header.ofBytes datagram) (datagram.drop headerSize)

theorem openMail_of_isPrefix {buffer : List UInt8} (h : letter.payload <+: buffer)
    : openMail (letter.pktHdr netAddr) buffer = letter.mail netAddr := by
  obtain ⟨rest, rfl⟩ := h
  have hdata := letter.length_data
  have hheader : Header.ofBytes (letter.payload ++ rest) = letter.mailHdr := by
    rw [Letter.payload, List.append_assoc]
    exact Header.ofBytes_bytes_append _ _
  unfold openMail
  rw [hheader, Letter.payload, List.append_assoc, List.drop_left' (Header.length_bytes _), List.take_left']
  . rfl
  . rw [List.length_take]
    omega

namespace Carries

theorem header (h : Carries netAddr letter datagram)
    : Header.ofBytes datagram = letter.pktHdr netAddr :=
  Header.ofBytes_of_isPrefix ((List.prefix_append _ _).trans h.2)

theorem payload (h : Carries netAddr letter datagram)
    : letter.payload <+: datagram.drop headerSize := by
  obtain ⟨rest, heq⟩ := h.2
  rw [← heq, List.append_assoc, List.drop_left' (Header.length_bytes _)]
  exact List.prefix_append _ _

theorem readMail_eq (h : Carries netAddr letter datagram) : readMail datagram = letter.mail netAddr := by
  rw [readMail, h.header]
  exact openMail_of_isPrefix h.payload

end Carries

end

end PostOffice

end Nachos
