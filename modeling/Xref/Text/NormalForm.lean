import Xref.Text.Characters

/-!
# Normal forms

Names are compared by their normal form, which is NFKC. It takes the characters of a name apart as
far as it goes, sorts the marks behind each of them by class, and puts together what can be. The
tables hold all that happens to characters of identifiers. A dot in them stands for no character.
-/

namespace Xref.Text

/-! ## Tables -/

/-- The pairs that characters are put together of, for the characters from some on. -/
def composites : List (Nat × String) :=
  [(0xC0, "ÀÁÂÃÄÅ..ÇÈÉÊËÌÍÎÏ..ÑÒÓÔÕÖ....ÙÚÛÜÝ....àáâãäå..ç"),
   (0xE8, "èéêëìíîï..ñòóôõö....ùúûüý..ÿĀāĂăĄąĆćĈĉĊċČčĎď"),
   (0x112, "ĒēĔĕĖėĘęĚěĜĝĞğĠġĢģĤĥ....ĨĩĪīĬĭĮįİ"),
   (0x134, "ĴĵĶķ..ĹĺĻļĽľ........ŃńŅņŇň......ŌōŎŏŐő....ŔŕŖ"),
   (0x157, "ŗŘřŚśŜŝŞşŠšŢţŤť....ŨũŪūŬŭŮůŰűŲųŴŵŶŷŸŹźŻżŽž"),
   (0x1A0, "Ơơ"), (0x1AF, "Ưư"),
   (0x1CD, "ǍǎǏǐǑǒǓǔǕǖǗǘǙǚǛǜ..ǞǟǠǡǢǣ....ǦǧǨǩǪǫǬǭǮǯǰ"),
   (0x1F4, "Ǵǵ....ǸǹǺǻǼǽǾǿȀȁȂȃȄȅȆȇȈȉȊȋȌȍȎȏȐȑȒȓȔȕȖȗȘșȚț"),
   (0x21E, "Ȟȟ............ȦȧȨȩȪȫȬȭȮȯȰȱȲȳ"), (0x386, "Ά..ΈΉΊ..Ό..ΎΏΐ"),
   (0x3AA, "ΪΫάέήίΰ"), (0x3CA, "ϊϋόύώ"), (0x400, "ЀЁ..Ѓ......Ї........ЌЍЎ"),
   (0x419, "Й"), (0x439, "й"), (0x450, "ѐё..ѓ......ї........ќѝў"), (0x476, "Ѷѷ"),
   (0x4C1, "Ӂӂ"), (0x4D0, "ӐӑӒӓ"),
   (0x4D6, "Ӗӗ....ӚӛӜӝӞӟ....ӢӣӤӥӦӧ....ӪӫӬӭӮӯӰӱӲӳӴӵ....Ӹӹ"),
   (0x622, "آأؤإئ"), (0x6C0, "ۀ..ۂ"), (0x6D3, "ۓ"), (0x929, "ऩ..............ऱ....ऴ"),
   (0x9CB, "োৌ"), (0xB48, "ୈ....ୋୌ"), (0xB94, "ஔ"), (0xBCA, "ொோௌ"), (0xC48, "ై"),
   (0xCC0, "ೀ............ೇೈ..ೊೋ"), (0xD4A, "ൊോൌ"), (0xDDA, "ේ..ොෝෞ"), (0x1026, "ဦ"),
   (0x1B06, "ᬆ..ᬈ..ᬊ..ᬌ..ᬎ......ᬒ"), (0x1B3B, "ᬻ..ᬽ....ᭀᭁ..ᭃ"),
   (0x1E00, "ḀḁḂḃḄḅḆḇḈḉḊḋḌḍḎḏḐḑḒḓḔḕḖḗḘḙḚḛḜḝḞḟḠḡ"),
   (0x1E22, "ḢḣḤḥḦḧḨḩḪḫḬḭḮḯḰḱḲḳḴḵḶḷḸḹḺḻḼḽḾḿṀṁṂṃṄṅṆṇṈṉ"),
   (0x1E4A, "ṊṋṌṍṎṏṐṑṒṓṔṕṖṗṘṙṚṛṜṝṞṟṠṡṢṣṤṥṦṧṨṩṪṫṬṭṮṯṰṱ"),
   (0x1E72, "ṲṳṴṵṶṷṸṹṺṻṼṽṾṿẀẁẂẃẄẅẆẇẈẉẊẋẌẍẎẏẐẑẒẓẔẕẖẗẘẙ"),
   (0x1EA0, "ẠạẢảẤấẦầẨẩ"),
   (0x1EAA, "ẪẫẬậẮắẰằẲẳẴẵẶặẸẹẺẻẼẽẾếỀềỂểỄễỆệỈỉỊịỌọỎỏỐố"),
   (0x1ED2, "ỒồỔổỖỗỘộỚớỜờỞởỠỡỢợỤụỦủỨứỪừỬửỮữỰựỲỳỴỵỶỷỸỹ"),
   (0x1F00, "ἀἁἂἃἄἅἆἇἈἉἊἋἌἍἎἏἐἑἒἓἔἕ....ἘἙἚἛἜἝ"),
   (0x1F20, "ἠἡἢἣἤἥἦἧἨἩἪἫἬἭἮἯἰἱἲἳἴἵἶἷἸἹἺἻἼἽἾἿὀὁὂὃὄὅ"),
   (0x1F48, "ὈὉὊὋὌὍ....ὐὑὒὓὔὕὖὗ..Ὑ..Ὓ..Ὕ..ὟὠὡὢὣὤὥὦὧὨὩὪὫὬ"),
   (0x1F6D, "ὭὮὯὰ..ὲ..ὴ..ὶ..ὸ..ὺ..ὼ......ᾀᾁᾂᾃᾄᾅᾆᾇᾈᾉᾊᾋᾌᾍᾎᾏᾐᾑᾒᾓᾔ"),
   (0x1F95, "ᾕᾖᾗᾘᾙᾚᾛᾜᾝᾞᾟᾠᾡᾢᾣᾤᾥᾦᾧᾨᾩᾪᾫᾬᾭᾮᾯᾰᾱᾲᾳᾴ..ᾶᾷᾸᾹᾺ..ᾼ"),
   (0x1FC2, "ῂῃῄ..ῆῇῈ..Ὴ..ῌ......ῐῑῒ......ῖῗῘῙῚ"),
   (0x1FE0, "ῠῡῢ..ῤῥῦῧῨῩῪ..Ῥ..........ῲῳῴ..ῶῷῸ..Ὼ..ῼ"),
   (0x304C, "が..ぎ..ぐ..げ..ご..ざ..じ..ず..ぜ..ぞ..だ..ぢ....づ..で..ど"),
   (0x3070, "ばぱ..びぴ..ぶぷ..べぺ..ぼぽ"), (0x3094, "ゔ"), (0x309E, "ゞ"),
   (0x30AC, "ガ..ギ..グ..ゲ..ゴ..ザ..ジ..ズ..ゼ..ゾ..ダ..ヂ....ヅ..デ..ド"),
   (0x30D0, "バパ..ビピ..ブプ..ベペ..ボポ"), (0x30F4, "ヴ....ヷヸヹヺ......ヾ"),
   (0x1109A, "𑂚..𑂜"), (0x110AB, "𑂫"), (0x1112E, "𑄮𑄯"), (0x1134B, "𑍋𑍌"),
   (0x114BB, "𑒻𑒼..𑒾"), (0x115BA, "𑖺𑖻"), (0x11938, "𑤸")]

/-- Runs of characters that stand for a run of others: the first of them, their number, and the
first of the others. -/
def standInRuns : List (Nat × Nat × Nat) :=
  [(0x1D33, 8, 0x47), (0x313A, 6, 0x11B0), (0x3145, 10, 0x1109), (0x314F, 21, 0x1161),
   (0xFF10, 10, 0x30), (0xFF21, 26, 0x41), (0xFF41, 26, 0x61), (0xFF85, 6, 0x30CA),
   (0xFF96, 6, 0x30E8), (0xFFAA, 6, 0x11B0), (0xFFB5, 10, 0x1109), (0xFFC2, 6, 0x1161),
   (0xFFCA, 6, 0x1167), (0xFFD2, 6, 0x116D), (0x1D400, 26, 0x41), (0x1D41A, 26, 0x61),
   (0x1D434, 26, 0x41), (0x1D44E, 7, 0x61), (0x1D456, 18, 0x69), (0x1D468, 26, 0x41),
   (0x1D482, 26, 0x61), (0x1D4AE, 8, 0x53), (0x1D4BD, 7, 0x68), (0x1D4C5, 11, 0x70),
   (0x1D4D0, 26, 0x41), (0x1D4EA, 26, 0x61), (0x1D50D, 8, 0x4A), (0x1D516, 7, 0x53),
   (0x1D51E, 26, 0x61), (0x1D54A, 7, 0x53), (0x1D552, 26, 0x61), (0x1D56C, 26, 0x41),
   (0x1D586, 26, 0x61), (0x1D5A0, 26, 0x41), (0x1D5BA, 26, 0x61), (0x1D5D4, 26, 0x41),
   (0x1D5EE, 26, 0x61), (0x1D608, 26, 0x41), (0x1D622, 26, 0x61), (0x1D63C, 26, 0x41),
   (0x1D656, 26, 0x61), (0x1D670, 26, 0x41), (0x1D68A, 26, 0x61), (0x1D6A8, 17, 0x391),
   (0x1D6BA, 7, 0x3A3), (0x1D6C2, 25, 0x3B1), (0x1D6E2, 17, 0x391), (0x1D6F4, 7, 0x3A3),
   (0x1D6FC, 25, 0x3B1), (0x1D71C, 17, 0x391), (0x1D72E, 7, 0x3A3), (0x1D736, 25, 0x3B1),
   (0x1D756, 17, 0x391), (0x1D768, 7, 0x3A3), (0x1D770, 25, 0x3B1), (0x1D790, 17, 0x391),
   (0x1D7A2, 7, 0x3A3), (0x1D7AA, 25, 0x3B1), (0x1D7CE, 10, 0x30), (0x1D7D8, 10, 0x30),
   (0x1D7E2, 10, 0x30), (0x1D7EC, 10, 0x30), (0x1D7F6, 10, 0x30), (0x1FBF0, 10, 0x30)]

/-- The characters that others stand for, so many for each from some on. -/
def standIns : List (Nat × Nat × String) :=
  [(0xAA, 1, "a..........μ....o"), (0x132, 2, "IJij"), (0x13F, 2, "L·l·................ʼn"),
   (0x17F, 1, "s"), (0x1C4, 2, "DŽDždžLJLjljNJNjnj"), (0x1F1, 2, "DZDzdz"), (0x2B0, 1, "hɦjrɹɻʁwy"),
   (0x2E0, 1, "ɣlsxʕ"), (0x340, 2, "̀.́...̓.̈́"), (0x374, 1, "ʹ"), (0x387, 1, "·"),
   (0x3D0, 1, "βθΥΎΫφπ"), (0x3F0, 1, "κρς.Θε...Σ"), (0x587, 2, "եւ"), (0x675, 2, "اٴوٴۇٴيٴ"),
   (0x958, 2, "क़ख़ग़ज़ड़ढ़फ़य़"), (0x9DC, 2, "ড়ঢ়..য়"), (0xA33, 2, "ਲ਼....ਸ਼"),
   (0xA59, 2, "ਖ਼ਗ਼ਜ਼....ਫ਼"), (0xB5C, 2, "ଡ଼ଢ଼"), (0xE33, 2, "ํา"), (0xEB3, 2, "ໍາ"),
   (0xEDC, 2, "ຫນຫມ"), (0xF43, 2, "གྷ"), (0xF4D, 2, "ཌྷ........དྷ........བྷ........ཛྷ"),
   (0xF69, 2, "ཀྵ"), (0xF73, 3, "ཱི....ཱུ.ྲྀ.ྲཱྀླྀ.ླཱྀ"), (0xF81, 2, "ཱྀ"), (0xF93, 2, "ྒྷ"),
   (0xF9D, 2, "ྜྷ........ྡྷ........ྦྷ........ྫྷ"), (0xFB9, 2, "ྐྵ"), (0x10FC, 1, "ნ"),
   (0x1D2C, 1, "AÆB.DEƎ.........OȢPRTUWaɐɑᴂbdeəɛɜg.kmŋoɔᴖᴗptuᴝɯvᴥβγδφχiruvβγρφχ.............н"),
   (0x1D9B, 1, "ɒcɕðɜfɟɡɥɨɩɪᵻʝɭᶅʟɱɰɲɳɴɵɸʂʃƫʉʊᴜʋʌzʐʑʒθ"), (0x1E9A, 2, "aʾṡ."),
   (0x1F71, 1, "ά.έ.ή.ί.ό.ύ.ώ"),
   (0x1FBB, 1, "Ά..ι..........Έ.Ή.......ΐ.......Ί.......ΰ.......Ύ.............Ό.Ώ"),
   (0x2071, 1, "i.............n................aeoxəhklmnpst"),
   (0x2102, 1, "C....Ɛ..gHHHhħIILl.N...PQRRR......Z.Ω.Z.KÅBC.eEF.Moאבגדi..πγΓΠ.....Ddeij"),
   (0x2160, 4, "I...II..III.IV..V...VI..VII.VIIIIX..X...XI..XII."),
   (0x216C, 4, "L...C...D...M...i...ii..iii.iv..v...vi..vii.viiiix..x...xi..xii.l...c...d...m..."),
   (0x2C7C, 1, "jV"), (0x2D6F, 1, "ⵡ"), (0x3038, 1, "十卄卅"), (0x309F, 2, "より"), (0x30FF, 2, "コト"),
   (0x3131, 1, "ᄀᄁᆪᄂᆬᆭᄃᄄᄅ......ᄚᄆᄇᄈᄡ"), (0x3164, 1, "ᅠᄔᄕᇇᇈᇌᇎᇓᇗᇙᄜᇝᇟᄝᄞᄠᄢᄣᄧᄩᄫᄬᄭᄮᄯᄲᄶᅀᅇᅌᇱᇲᅗᅘᅙᆄᆅᆈᆑᆒᆔᆞᆡ"),
   (0xA69C, 1, "ъь"), (0xA770, 1, "ꝯ"), (0xA7F2, 1, "CFQ...Ħœ"), (0xAB5C, 1, "ꜧꬷɫꭒ.........ʍ"),
   (0xF900, 1, "豈更車賈滑串句龜龜契金喇奈懶癩羅蘿螺裸邏樂洛烙珞落酪駱亂卵欄爛蘭鸞嵐濫藍襤拉臘蠟廊朗浪狼郎來冷勞擄櫓爐盧老蘆虜路露魯鷺碌祿綠菉錄鹿論壟弄籠聾牢磊賂雷"),
   (0xF94A, 1, "壘屢樓淚漏累縷陋勒肋凜凌稜綾菱陵讀拏樂諾丹寧怒率異北磻便復不泌數索參塞省葉說殺辰沈拾若掠略亮兩凉梁糧良諒量勵呂女廬旅濾礪閭驪麗黎力曆歷轢年憐戀撚漣煉璉秊練聯輦蓮"),
   (0xF99A, 1, "連鍊列劣咽烈裂說廉念捻殮簾獵令囹寧嶺怜玲瑩羚聆鈴零靈領例禮醴隸惡了僚寮尿料樂燎療蓼遼龍暈阮劉杻柳流溜琉留硫紐類六戮陸倫崙淪輪律慄栗率隆利吏履易李梨泥理痢罹裏裡里"),
   (0xF9EA, 1, "離匿溺吝燐璘藺隣鱗麟林淋臨立笠粒狀炙識什茶刺切度拓糖宅洞暴輻行降見廓兀嗀..塚.晴..凞猪益礼神祥福靖精羽.蘒.諸..逸都...飯飼館鶴郞隷侮僧免勉勤卑喝嘆器塀"),
   (0xFA3A, 1, "墨層屮悔慨憎懲敏既暑梅海渚漢煮爫琢碑社祉祈祐祖祝禍禎穀突節練縉繁署者臭艹艹著褐視謁謹賓贈辶逸難響頻恵𤋮舘..並况全侀充冀勇勺喝啕喙嗢塚墳奄奔婢嬨廒廙彩徭惘慎愈憎"),
   (0xFA8A, 1, "慠懲戴揄搜摒敖晴朗望杖歹殺流滛滋漢瀞煮瞧爵犯猪瑱甆画瘝瘟益盛直睊着磌窱節类絛練缾者荒華蝹襁覆視調諸請謁諾諭謹變贈輸遲醙鉶陼難靖韛響頋頻鬒龜𢡊𢡄𣏕㮝䀘䀹𥉉𥳐𧻓齃龎"),
   (0xFB00, 3, "ff.fi.fl.ffifflst.st."),
   (0xFB13, 2, "մնմեմիվնմխ..........יִ..ײַע.א.ד.ה.כ.ל.ם.ר.ת."), (0xFB2A, 3, "שׁ.שׂ.שּׁשּׂ"),
   (0xFB2E, 2, "אַאָאּבּגּדּהּוּזּ..טּיּךּכּלּ..מּ..נּסּ..ףּפּ..צּקּרּשּתּוֹבֿכֿפֿאל"),
   (0xFB50, 1, "ٱٱٻٻٻٻپپپپڀڀڀڀٺٺٺٺ"),
   (0xFB62, 1, "ٿٿٿٿٹٹٹٹڤڤڤڤڦڦڦڦڄڄڄڄڃڃڃڃچچچچڇڇڇڇڍڍڌڌڎڎڈڈژژڑڑککککگگگگڳڳڳڳڱڱڱڱںںڻڻڻڻۀۀہہہہھھھھےےۓۓ"),
   (0xFBD3, 2, "ڭ.ڭ.ڭ.ڭ.ۇ.ۇ.ۆ.ۆ.ۈ.ۈ.ۇٴۋ.ۋ.ۅ.ۅ.ۉ.ۉ.ې.ې."),
   (0xFBE6, 2, "ې.ې.ى.ى.ئائائەئەئوئوئۇئۇئۆئۆئۈئۈئېئېئېئىئىئىی.ی.ی.ی.ئجئحئمئىئيبجبحبخبمبىبيتجتحتخ"),
   (0xFC0E, 2, "تمتىتيثجثمثىثيجحجمحجحمخجخحخمسجسحسخسمصحصمضجضحضخضمطحطمظمعجعمغجغمفجفحفخفمفىفيقحقمقى"),
   (0xFC36, 2, "قيكاكجكحكخكلكمكىكيلجلحلخلملىليمجمحمخمممىمينجنحنخنمنىنيهجهمهىهييجيحيخيميىييذٰرٰىٰ"),
   (0xFC64, 2, "ئرئزئمئنئىئيبربزبمبنبىبيترتزتمتنتىتيثرثزثمثن"),
   (0xFC7A, 2, "ثىثيفىفيقىقيكاكلكمكىكيلملىليماممنرنزنمنننىنيىٰيريزيمينيىييئجئحئخئمئهبجبحبخبمبهتج"),
   (0xFCA2, 2, "تحتختمتهثمجحجمحجحمخجخمسجسحسخسمصحصخصمضجضحضخضمطحظمعجعمغجغمفجفحفخفمقحقمكجكحكخكلكملج"),
   (0xFCCA, 2, "لحلخلملهمجمحمخممنجنحنخنمنههجهمهٰيجيحيخيميهئمئهبمبهتمتهثمثهسمسهشمشهكلكملمنمنهيميه"),
   (0xFCF2, 3, "ـَّـُّـِّ"),
   (0xFCF5, 2, "طىطيعىعيغىغيسىسيشىشيحىحيجىجيخىخيصىصيضىضيشجشحشخشمشرسرصرضرطىطيعىعيغى"),
   (0xFD16, 2, "غيسىسيشىشيحىحيجىجيخىخيصىصيضىضيشجشحشخشمشرسرصرضرشجشحشخشمسهشهطمسجسحسخشجشحشخطمظماًاً"),
   (0xFD50, 3, "تجمتحجتحجتحمتخمتمجتمحتمخجمحجمححميحمىسحجسجحسجىسمح"),
   (0xFD60, 3, "سمحسمجسممسممصححصححصممشحمشحمشجيشمخشمخشممشممضحىضخمضخمطمحطمحطممطميعجمعممعممعمىغمم"),
   (0xFD7A, 3, "غميغمىفخمفخمقمحقمملحملحيلحىلججلججلخملخملمحلمحمحجمحممحيمجحمجممخجمخم......مجخهمج"),
   (0xFD94, 3, "هممنحمنحىنجمنجمنجىنمينمىيمميممبخيتجيتجىتخيتخىتميتمىجميجحىجمىسخىصحيشحيضحيلجيلمي"),
   (0xFDAE, 3, "يحييجييميمميقمينحيقمحلحمعميكمينجحمخيلجمكمملجمنجحجحيحجيمجيفميبحيكممعجمصممسخينجي"),
   (0xFDF0, 4, "صلے.قلے.اللهاكبرمحمدصلعمرسولعليهوسلمصلى."), (0xFE33, 1, "__"), (0xFE4D, 1, "___"),
   (0xFE71, 2, "ـً..........ـَ..ـُ..ـِ..ـّ..ـْ"),
   (0xFE80, 1, "ءآآأأؤؤإإئئئئااببببةةتتتتثثثثججججحححح"),
   (0xFEA5, 1, "خخخخددذذررززسسسسششششصصصصضضضضططططظظظظععععغغغغففففققققككككللللممممننننههههووىىيييي"),
   (0xFEF5, 2, "لآلآلألألإلإلالا"), (0xFF3F, 1, "_"),
   (0xFF66, 1, "ヲァィゥェォャュョッーアイウエオカキクケコサシスセソタチツテト......ヒフヘホマミムメモヤユ......ワン゙゚ᅠᄀᄁᆪᄂᆬᆭᄃᄄᄅ......ᄚᄆᄇᄈᄡ"),
   (0xFFDA, 1, "ᅳᅴᅵ"), (0x10781, 1, "ːˑæʙɓ.ʣꭦʥʤɖɗᶑɘɞʩɤɢɠʛħʜɧʄʪʫɬ𝼄ꞎɮ𝼅ʎ𝼆øɶɷqɺ𝼈ɽɾʀʨʦꭧʧʈⱱ.ʏʡʢʘǀǁǂ𝼊𝼞"),
   (0x1D49C, 1, "A.CD..G..JK..NOPQ.........abcd.f"), (0x1D504, 1, "AB.DEFG"),
   (0x1D538, 1, "AB.DEFG.IJKLM.O"), (0x1D6A4, 1, "ıȷ"), (0x1D6B9, 1, "Θ"), (0x1D6DC, 1, "εθκφρπ"),
   (0x1D6F3, 1, "Θ"), (0x1D716, 1, "εθκφρπ"), (0x1D72D, 1, "Θ"), (0x1D750, 1, "εθκφρπ"),
   (0x1D767, 1, "Θ"), (0x1D78A, 1, "εθκφρπ"), (0x1D7A1, 1, "Θ"), (0x1D7C4, 1, "εθκφρπϜϝ"),
   (0x1EE00, 1, "ابجد.وزحطيكلمنسعفصقرشتثخذضظغٮںڡٯ.بج.ه..ح.يكلمنسعفصق.شتثخ.ض.غ"),
   (0x1EE42, 1, "ج....ح.ي.ل.نسع.صق.ش..خ.ض.غ.ں.ٯ.بج.ه..حطيك"),
   (0x1EE6C, 1, "منسعفصق.شتثخ.ضظغٮ.ڡ.ابجدهوزحطي.لمنسعفصقرشتثخذضظغ.....بجد.وزحطي.لمنسعفصقرشتثخذضظغ"),
   (0x2F800, 1, "丽丸乁𠄢你侮侻倂偺備僧像㒞𠘺免兔兤具𠔜㒹內再𠕋冗冤仌冬况𩇟凵刃㓟刻剆割剷㔕勇勉勤勺包匆北卉卑博即卽卿卿卿𠨬灰及叟𠭣叫叱吆咞吸"),
   (0x2F83E, 1, "呈周咢哶唐啓啣善善喙喫喳嗂圖嘆圗噑噴切壮城埴堍型堲報墬𡓤売壷夆多夢奢𡚨𡛪姬娛娧姘婦㛮㛼嬈嬾嬾𡧈寃寘寧寳𡬘寿将当尢㞁屠屮峀岍𡷤嵃𡷦嵮嵫嵼巡巢㠯巽帨帽幩㡢𢆃㡼庰庳庶"),
   (0x2F88E, 1, "廊𪎒廾𢌱𢌱舁弢弢㣇𣊸𦇚形彫㣣徚忍志忹悁㤺㤜悔𢛔惇慈慌慎慌慺憎憲憤憯懞懲懶成戛扝抱拔捐𢬌挽拼捨掃揤𢯱搢揅掩㨮摩摾撝摷㩬敏敬𣀊旣書晉㬙暑㬈㫤冒冕最暜肭䏙朗望朡杞杓𣏃"),
   (0x2F8DE, 1, "㭉柺枅桒梅𣑭梎栟椔㮝楂榣槪檨𣚣櫛㰘次𣢧歔㱎歲殟殺殻𣪍𡴋𣫺汎𣲼沿泍汧洖派海流浩浸涅𣴞洴港湮㴳滋滇𣻑淹潮𣽞𣾎濆瀹瀞瀛㶖灊災灷炭𠔥煅𤉣熜𤎫爨爵牐𤘈犀犕𤜵𤠔獺王㺬玥㺸㺸"),
   (0x2F92E, 1, "瑇瑜瑱璅瓊㼛甤𤰶甾𤲒異𢆟瘐𤾡𤾸𥁄㿼䀈直𥃳𥃲𥄙𥄳眞真真睊䀹瞋䁆䂖𥐝硎碌磌䃣𥘦祖𥚚𥛅福秫䄯穀穊穏𥥼𥪧𥪧竮䈂𥮫篆築䈧𥲀糒䊠糨糣紀𥾆絣䌁緇縂繅䌴𦈨𦉇䍙𦋙罺𦌾羕翺者𦓚𦔣聠"),
   (0x2F97E, 1, "𦖨聰𣍟䏕育脃䐋脾媵𦞧𦞵𣎓𣎜舁舄辞䑫芑芋芝劳花芳芽苦𦬼若茝荣莭茣莽菧著荓菊菌菜𦰶𦵫𦳕䔫蓱蓳蔖𧏊蕤𦼬䕝䕡𦾱𧃒䕫虐虜虧虩蚩蚈蜎蛢蝹蜨蝫螆䗗蟡蠁䗹衠衣𧙧裗裞䘵裺㒻𧢮𧥦䚾"),
   (0x2F9CE, 1, "䛇誠諭變豕𧲨貫賁贛起𧼯𠠄跋趼跰𠣞軔輸𨗒𨗭邔郱鄑𨜮鄛鈸鋗鋘鉼鏹鐕𨯺開䦕閷𨵷䧦雃嶲霣𩅅𩈚䩮䩶韠𩐊䪲𩒖頋頋頩𩖶飢䬳餩馧駂駾䯎𩬰鬒鱀鳽䳎䳭鵧𪃎䳸𪄅𪈎𪊑麻䵖黹黾鼅鼏鼖鼻𪘀")]

/-- The classes of marks, and the marks of each. -/
def markClasses : List (Nat × List (Nat × Nat)) := List.map (fun (k, marks) => (k, ranges [marks]))
  [(1, "bfOFjsDBNHbmNCEDKCDCdkjDBbkqGFbeyBBhwQD"), (6, "fjiUC"),
   (7, "dmYBeXBeXBeXBeXBjVBeXBbiGBeeEBgVBdCBcbpBBbnaKBhCBdIBeDBgWBdDCkFBeUBjSBjMBoWBkEBbnIB"),
   (7, "hdhQB"), (8, "skNC"),
   (9, "dnPBeXBeXBeXBeXBeXBeXBeXBeFCQBeUBeHBeXBhTBgYCcpLCbEBgBBzDBiTBdXCcSCgqTBbukKBbLBfVBfMB"),
   (9, "cmhKBlXBjMBbjsRBchIBbPBOBcFBeRCfJBeMBgYBdUBjKBeXBjSBeXBeOBeMBkJBjZCgFBdFBSBdDBqFBkAC"),
   (9, "eedZB"), (10, "ceAB"), (11, "ceBB"), (12, "ceCB"), (13, "ceDB"), (14, "ceEB"), (15, "ceFB"),
   (16, "ceGB"), (17, "ceHB"), (18, "ceIBOB"), (19, "ceJC"), (20, "ceLB"), (21, "ceMB"),
   (22, "ceNB"), (23, "cePB"), (24, "ceRB"), (25, "ceSB"), (26, "drcOB"), (27, "cjZBbaAB"),
   (28, "ckABbaAB"), (29, "ckBBbaAB"), (30, "ciABcBB"), (31, "ciBBcBB"), (32, "ciCBcBB"),
   (33, "ckFB"), (34, "ckGB"), (35, "clKB"), (36, "crPB"), (84, "erLB"), (91, "erMB"),
   (103, "fkAC"), (107, "fkQE"), (118, "foYC"), (122, "fpOE"), (129, "fwBB"), (130, "fwCBHECB"),
   (132, "fwEB"), (202, "beVCECkcLB"), (214, "lhMB"), (216, "bePBepHBgomLCHF"), (218, "ljEBgxBB"),
   (220, "beKECFCECLFEKDDCEECCvUBEBEBGGCBbABfNCFBCBfBBGBCBcPBCBCDBCBBDBBBBBBBgNBKBdNDcJDbZFPBCB"),
   (220, "djTBDDGBCCdJBceVCbBBBBfMBhQBdhLBiMBdYBcBGCBBCCCFBgFBnWFCENBiEBHBEBbPBDBBBbcQBDEbzpJD"),
   (220, "cmqUBbfpQHblNBiSBcsQBbSBgPBbrBCDBBEbYBBBcvlTIHCivCH"), (222, "cdEBSBhkLBirZB"),
   (224, "sgKC"), (226, "gugRB"), (228, "cdYBheWBcaFCgxEB"),
   (230, "bdOVbOIBBDDDDEBDBHNkPFkGEBDCGGCBCCBUBcXIcHCCFBCePHCEBBCCCCcPBBCBCDBCBBDBBBBBBBCgEHBB"),
   (230, "dbQEBJBDBFeCBDEbQFFOCCBCBDGDBCCFdDBBCgNBccHCCCblTDbsFBnKBiMBdPIbZFGCECCFBEgABBHnKDHCEB"),
   (230, "kzCBDChQCBHBCEbLFBCBbbTCCEDCEBFBBBGBeoCDjEbGbtpVBEKbGCdCCtASrEBBCDCFCBBbfoWHHCbzYFcmUB"),
   (230, "dwvGBgQBwCEoXCfZDBBcBBBBoPDxNHDFiZBbgwVHbmtIFbGEfSDffFHBRCHBCBFkBHoLBcJEckIG"),
   (232, "beJBEBcJBkcBBgxHB"), (233, "bhCBCBCBkbXB"), (234, "bhDCBCkaDB"), (240, "bgFB")]

/-! ## Syllables -/

/-- A Korean syllable of two letters, or of such a one and a third letter. -/
def syllable? (a b : Nat) : Option Nat :=
  if 0x1100 ≤ a && a < 0x1113 && 0x1161 ≤ b && b < 0x1176 then
    some (0xAC00 + 588 * (a - 0x1100) + 28 * (b - 0x1161))
  else if 0xAC00 ≤ a && a < 0xD7A4 && (a - 0xAC00) % 28 = 0 && 0x11A7 < b && b < 0x11C3 then
    some (a + (b - 0x11A7))
  else none

def syllableParts (n : Nat) : List Nat :=
  let place := n - 0xAC00
  if n < 0xAC00 || 0xD7A4 ≤ n then []
  else if place % 28 = 0 then [0x1100 + place / 588, 0x1161 + place % 588 / 28]
  else [n - place % 28, 0x11A7 + place % 28]

/-! ## Taking apart -/

/-- What a table that gives so many characters for each holds for one. -/
def entry (first size : Nat) (all : String) (c : Char) : List Char :=
  ((all.toList.drop (size * (c.toNat - first))).take size).filter (· ≠ '.')

/-- The two characters of which a character is put together, if there are any. -/
def pairOf (c : Char) : List Char :=
  if c.toNat < 0xC0 then []
  else
    match (composites.takeWhile (·.1 ≤ c.toNat)).getLast? with
    | some (first, pairs) => entry first 2 pairs c ++ (syllableParts c.toNat).map Char.ofNat
    | none => []

/-- The characters of which a character is put together, in so many steps at most. -/
def unfolded : Nat → Char → List Char
  | 0, c => [c]
  | steps + 1, c =>
    match pairOf c with
    | [base, mark] => unfolded steps base ++ [mark]
    | _ => [c]

/-- What a character stands for, if it is not itself. -/
def standsFor (c : Char) : List Char :=
  match standInRuns.find? fun (first, count, _) => first ≤ c.toNat && c.toNat < first + count with
  | some (first, _, target) => [Char.ofNat (target + (c.toNat - first))]
  | none =>
    match (standIns.takeWhile (·.1 ≤ c.toNat)).getLast? with
    | some (first, size, all) => entry first size all c
    | none => []

/-- The characters that a character is taken apart into: no character is put together in more than
three steps. -/
def takenApart (c : Char) : List Char :=
  let meant := standsFor c
  (if meant.isEmpty then [c] else meant).flatMap (unfolded 3)

/-! ## Sorting marks -/

/-- The class of a mark. Characters that are no marks have the class zero. -/
def markClass (c : Char) : Nat :=
  if c.toNat < 0x300 then 0
  else ((markClasses.find? fun (_, marks) => inRanges marks c.toNat).map Prod.fst).getD 0

/-- Puts a character behind others, which are given from the last on; a mark moves before the marks
of higher classes. -/
def putBehind (c : Char) : List Char → List Char
  | [] => [c]
  | d :: ds =>
    if 0 < markClass c && markClass c < markClass d then d :: putBehind c ds else c :: d :: ds

/-! ## Putting together -/

/-- Where a pair stands in a list of pairs. -/
def pairIndex? (a b : Char) : List Char → Option Nat
  | c :: d :: rest => if c = a ∧ d = b then some 0 else (pairIndex? a b rest).map (· + 1)
  | _ => none

/-- The character that is put together of two. -/
def compose? (a b : Char) : Option Char :=
  if b.toNat < 0x300 then none
  else
    ((syllable? a.toNat b.toNat) <|> composites.findSome? fun (first, pairs) =>
      (pairIndex? a b pairs.toList).map (first + ·)).map Char.ofNat

/-- Puts a character together with the marks behind it that are not cut off by another of their
class, and goes on with the next character. The marks that are kept are given from the last on. -/
def putTogether (c : Char) (kept : List Char) : List Char → List Char
  | [] => c :: kept.reverse
  | d :: ds =>
    let isCutOff := kept.head?.any fun k => markClass d ≤ markClass k
    match if isCutOff then none else compose? c d with
    | some whole => putTogether whole kept ds
    | none =>
      if markClass d = 0 then c :: kept.reverse ++ putTogether d [] ds
      else putTogether c (d :: kept) ds

/-- The normal form of a name. -/
def normalForm (name : String) : String :=
  if name.toList.all (·.toNat < 128) then name
  else
    match ((name.toList.flatMap takenApart).foldl (fun cs c => putBehind c cs) []).reverse with
    | [] => ""
    | c :: cs => String.ofList (putTogether c [] cs)

end Xref.Text
