import Mathlib.Data.List.Basic

/-! The fields of `dev.state` (`mpid/ch3/include/mpidimpl.h`). -/

namespace FgMpi.Zerocopy

def requestSelfMsg : BitVec 32 := 3

/-- `MPIDI_REQUEST_TYPE_..`; the number of a zero-copy send is also that of `GET_ACCUM_RESP`. -/
def requestTypeRecv : BitVec 32 := 0
def requestTypeSend : BitVec 32 := 1
def requestTypeZsend : BitVec 32 := 13

def requestMsgMask : BitVec 32 := 0x3 <<< 0
def requestTypeMask : BitVec 32 := 0xF <<< 4
def requestSelfZerocopyMask : BitVec 32 := 0x1 <<< 9

def setMsgType (state msgType : BitVec 32) : BitVec 32 :=
  (state &&& ~~~requestMsgMask) ||| ((msgType <<< 0) &&& requestMsgMask)

def setType (state type : BitVec 32) : BitVec 32 :=
  (state &&& ~~~requestTypeMask) ||| ((type <<< 4) &&& requestTypeMask)

def getType (state : BitVec 32) : BitVec 32 := (state &&& requestTypeMask) >>> 4

def setSelfZerocopyFlag (state flag : BitVec 32) : BitVec 32 :=
  (state &&& ~~~requestSelfZerocopyMask) ||| ((flag <<< 9) &&& requestSelfZerocopyMask)

def getSelfZerocopyFlag (state : BitVec 32) : Bool := (state &&& requestSelfZerocopyMask) >>> 9 != 0

/-- A receive request, before and after `MPID_Zrecv` has marked it. -/
def recvState (zerocopy : Bool) : BitVec 32 :=
  let state := setType 0 requestTypeRecv
  if zerocopy then setSelfZerocopyFlag state 1 else state

/-- The send request of `MPIDI_Isend_self`. -/
def selfSendState (type : BitVec 32) : BitVec 32 :=
  let state := setMsgType (setType 0 type) requestSelfMsg
  if type = requestTypeZsend then setSelfZerocopyFlag state 1 else state

/-- The send request of `MPID_Izsend` to another OS process. -/
def remoteSendState : BitVec 32 := setSelfZerocopyFlag (setType 0 requestTypeSend) 1

theorem recvState_flag (zerocopy : Bool) : getSelfZerocopyFlag (recvState zerocopy) = zerocopy := by
  cases zerocopy <;> rfl

theorem selfSendState_flag : getSelfZerocopyFlag (selfSendState requestTypeZsend) = true := rfl

theorem selfSendState_type : getType (selfSendState requestTypeZsend) ≠ requestTypeSend := by decide

theorem remoteSendState_flag : getSelfZerocopyFlag remoteSendState = true := rfl

theorem remoteSendState_type : getType remoteSendState = requestTypeSend := rfl

end FgMpi.Zerocopy
