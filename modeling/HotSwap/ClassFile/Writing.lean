import HotSwap.ClassFile

/-! # Writing class files

Lists are preceded by a two byte count, and blocks of bytes by a four byte length.
The code of a method is written as the first of its attributes. -/

namespace HotSwap

def Attribute.encode (item : Attribute) : Bytes :=
  Word.u16.encode item.name ++ Bytes.ofNat 4 item.info.length ++ item.info

def Handler.encode (handler : Handler) : Bytes :=
  Word.u16.encode handler.start ++ Word.u16.encode handler.stop ++
    Word.u16.encode handler.target ++ Word.u16.encode handler.catchType

def Body.encode (body : Body) : Bytes :=
  Word.u16.encode body.maxStack ++ Word.u16.encode body.maxLocals ++
    Bytes.ofNat 4 body.code.length ++ body.code ++
    Bytes.counted Handler.encode body.handlers ++ Bytes.counted Attribute.encode body.attributes

def Field.encode (field : Field) : Bytes :=
  Word.u16.encode field.flags ++ Word.u16.encode field.name ++
    Word.u16.encode field.descriptor ++ Bytes.counted Attribute.encode field.attributes

/-- The code as an attribute like any other. -/
def CodeAttribute.toAttribute (code : CodeAttribute) : Attribute :=
  ⟨code.name, code.body.encode⟩

/-- The attributes of a method as they are written, with the code in front. -/
def Method.allAttributes (method : Method) : List Attribute :=
  (method.code.map CodeAttribute.toAttribute).toList ++ method.attributes

def Method.encode (method : Method) : Bytes :=
  method.flags.encode ++ Word.u16.encode method.name ++ Word.u16.encode method.descriptor ++
    Bytes.counted Attribute.encode method.allAttributes

def ClassFile.encode (file : ClassFile) : Bytes :=
  magic ++ Word.u16.encode file.minorVersion ++ Word.u16.encode file.majorVersion ++
    file.constants.encode ++ file.flags.encode ++ Word.u16.encode file.thisClass ++
    Word.u16.encode file.superClass ++ Bytes.counted Word.u16.encode file.interfaces ++
    Bytes.counted Field.encode file.fields ++ Bytes.counted Method.encode file.methods ++
    Bytes.counted Attribute.encode file.attributes

end HotSwap
